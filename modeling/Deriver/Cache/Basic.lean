import Deriver.Text.Basic

/-!
# Caching

What a run generates for a content is kept in a store, from which the next run takes it.
-/

/-!
## SHA-256

The secure hash with a digest of 256 bits: the message is padded to whole
blocks of 64 bytes, and each block is mixed into a state of eight words in 64
rounds.
-/

namespace Deriver.Sha256

/-- The state between blocks, and the working variables of a round. -/
structure State where
  a : UInt32
  b : UInt32
  c : UInt32
  d : UInt32
  e : UInt32
  f : UInt32
  g : UInt32
  h : UInt32
  deriving DecidableEq, Repr

def initial : State where
  a := 0x6a09e667
  b := 0xbb67ae85
  c := 0x3c6ef372
  d := 0xa54ff53a
  e := 0x510e527f
  f := 0x9b05688c
  g := 0x1f83d9ab
  h := 0x5be0cd19

def constants : List UInt32 :=
  [0x428a2f98, 0x71374491, 0xb5c0fbcf, 0xe9b5dba5,
   0x3956c25b, 0x59f111f1, 0x923f82a4, 0xab1c5ed5,
   0xd807aa98, 0x12835b01, 0x243185be, 0x550c7dc3,
   0x72be5d74, 0x80deb1fe, 0x9bdc06a7, 0xc19bf174,
   0xe49b69c1, 0xefbe4786, 0x0fc19dc6, 0x240ca1cc,
   0x2de92c6f, 0x4a7484aa, 0x5cb0a9dc, 0x76f988da,
   0x983e5152, 0xa831c66d, 0xb00327c8, 0xbf597fc7,
   0xc6e00bf3, 0xd5a79147, 0x06ca6351, 0x14292967,
   0x27b70a85, 0x2e1b2138, 0x4d2c6dfc, 0x53380d13,
   0x650a7354, 0x766a0abb, 0x81c2c92e, 0x92722c85,
   0xa2bfe8a1, 0xa81a664b, 0xc24b8b70, 0xc76c51a3,
   0xd192e819, 0xd6990624, 0xf40e3585, 0x106aa070,
   0x19a4c116, 0x1e376c08, 0x2748774c, 0x34b0bcb5,
   0x391c0cb3, 0x4ed8aa4a, 0x5b9cca4f, 0x682e6ff3,
   0x748f82ee, 0x78a5636f, 0x84c87814, 0x8cc70208,
   0x90befffa, 0xa4506ceb, 0xbef9a3f7, 0xc67178f2]

def rotate (w : UInt32) (n : UInt32) : UInt32 := (w >>> n) ||| (w <<< (32 - n))

def sigma0 (w : UInt32) : UInt32 := rotate w 7 ^^^ rotate w 18 ^^^ (w >>> 3)

def sigma1 (w : UInt32) : UInt32 := rotate w 17 ^^^ rotate w 19 ^^^ (w >>> 10)

/-- The bytes as words, the highest byte first. -/
def words : Text → List UInt32
  | a :: b :: c :: d :: rest =>
      (a.toUInt32 <<< 24 ||| b.toUInt32 <<< 16 ||| c.toUInt32 <<< 8 ||| d.toUInt32) ::
        words rest
  | _ => []

/-- `n` more words of the schedule; the words so far are in reverse. -/
def extend : Nat → List UInt32 → List UInt32
  | 0, ws => ws
  | n + 1, ws =>
      let w (back : Nat) : UInt32 := (ws[back - 1]?).getD 0
      extend n ((w 16 + sigma0 (w 15) + w 7 + sigma1 (w 2)) :: ws)

def schedule (block : Text) : List UInt32 := (extend 48 (words block).reverse).reverse

def round (s : State) (w k : UInt32) : State :=
  let mix := rotate s.e 6 ^^^ rotate s.e 11 ^^^ rotate s.e 25
  let choice := (s.e &&& s.f) ^^^ (~~~s.e &&& s.g)
  let t1 := s.h + mix + choice + k + w
  let spread := rotate s.a 2 ^^^ rotate s.a 13 ^^^ rotate s.a 22
  let majority := (s.a &&& s.b) ^^^ (s.a &&& s.c) ^^^ (s.b &&& s.c)
  { a := t1 + (spread + majority), b := s.a, c := s.b, d := s.c
    e := s.d + t1, f := s.e, g := s.f, h := s.g }

def compress (s : State) (block : Text) : State :=
  let r := ((schedule block).zip constants).foldl (fun s (w, k) => round s w k) s
  { a := s.a + r.a, b := s.b + r.b, c := s.c + r.c, d := s.d + r.d
    e := s.e + r.e, f := s.f + r.f, g := s.g + r.g, h := s.h + r.h }

/-- A number in `width` bytes, the highest first. -/
def bigEndian : Nat → Nat → Text
  | 0, _ => []
  | width + 1, n => bigEndian width (n / 256) ++ [(n % 256).toUInt8]

/-- The message, a set bit, zeros up to a whole block, and the length in bits. -/
def pad (message : Text) : Text :=
  let zeros := (119 - message.length % 64) % 64
  message ++ 128 :: (List.replicate zeros 0 ++ bigEndian 8 (message.length * 8))

def blocks (t : Text) : List Text :=
  if t.isEmpty then [] else t.take 64 :: blocks (t.drop 64)
termination_by t.length
decreasing_by
  rename_i h
  have : t.length ≠ 0 := by simpa using h
  simp only [List.length_drop]
  omega

def digest (message : Text) : Text :=
  let s := (blocks (pad message)).foldl compress initial
  Text.concat ([s.a, s.b, s.c, s.d, s.e, s.f, s.g, s.h].map fun w => Text.hex 8 w.toNat)

end Deriver.Sha256

/-!
## A store in memory

A map from keys to values that forgets a value when its time has come. The clock
is an argument of every operation that looks at it, in nanoseconds from some
fixed moment.
-/

namespace Deriver

/-- A stored value and the moment after which it is forgotten, if there is one. -/
structure Stored where
  value : Text
  expires : Option Int
  deriving DecidableEq, Repr

def Stored.expired (s : Stored) (now : Int) : Bool :=
  match s.expires with
  | some moment => moment < now
  | none => false

/-- A store: what stands in front of every key, how long a value is kept if
nothing is said, and the entries. -/
structure MemoryStore where
  mark : Text := []
  keep : Int := 0
  entries : List (Text × Stored) := []
  deriving Repr

namespace MemoryStore

/-- The entry of a key, whether its time has come or not. -/
def entry? (m : MemoryStore) (key : Text) : Option Stored :=
  m.entries.lookup (m.mark ++ key)

def erase (m : MemoryStore) (key : Text) : MemoryStore :=
  { m with entries := m.entries.filter (·.1 != m.mark ++ key) }

/-- The store with a value under a key. A time to live of zero stands for the
usual one; without a positive time the value is never forgotten. -/
def insert (m : MemoryStore) (now : Int) (key value : Text) (ttl : Int) : MemoryStore :=
  let ttl := if ttl = 0 then m.keep else ttl
  let item : Stored :=
      { value := value, expires := if 0 < ttl then some (now + ttl) else none }
  { m with entries := (m.mark ++ key, item) :: (m.erase key).entries }

/-- The value under a key. An entry that has expired is dropped when it is met. -/
def get (m : MemoryStore) (now : Int) (key : Text) : Option Text × MemoryStore :=
  match m.entry? key with
  | none => (none, m)
  | some s => if s.expired now then (none, m.erase key) else (some s.value, m)

def clear (m : MemoryStore) : MemoryStore := { m with entries := [] }

/-- How many entries are held, expired ones included. -/
def size (m : MemoryStore) : Nat := m.entries.length

def prune (m : MemoryStore) (now : Int) : MemoryStore :=
  { m with entries := m.entries.filter (!·.2.expired now) }

end MemoryStore

/-!
## The cache of a run

A run remembers what it generated for a content, either in memory or not at all.
It is stored under a key: the digest of the content together with a salt, which
stands for everything else that shapes the result, and with the version of the
format. A moment is the clock and whether the work was called off: a cancelled cache in
memory refuses every request and changes nothing.
-/

/-- The version of what is stored; it changes with the shape of generated code. -/
def keyVersion : Text := "derivekit/v1"

def keyedContent (salt content : Text) : Text := keyVersion ++ 0 :: salt ++ 0 :: content

def contentKey (salt content : Text) : Text := Sha256.digest (keyedContent salt content)

/-- When something is asked for. -/
structure Moment where
  now : Int := 0
  cancelled : Bool := false
  deriving Repr

def cancelledText : Text := "context canceled"

/-- Why a cache has no answer. -/
inductive CacheFault where
  | miss (key : Text)
  | cancelled
  deriving DecidableEq, Repr

namespace CacheFault

def message : CacheFault → Text
  | .miss key => "cache miss: " ++ key
  | .cancelled => cancelledText

def isMiss : CacheFault → Bool
  | .miss _ => true
  | .cancelled => false

end CacheFault

/-- A cache. -/
inductive Cache where
  | memory (store : MemoryStore)
  /-- Nothing is ever stored. -/
  | none

namespace Cache

/-- A change of the store, unless the work was called off. -/
def change (c : Cache) (m : Moment) (f : MemoryStore → MemoryStore) :
    Except CacheFault Cache :=
  match c with
  | .none => .ok .none
  | .memory store => if m.cancelled then .error .cancelled else .ok (.memory (f store))

/-- The value under a key, and the cache afterwards. -/
def get (c : Cache) (m : Moment) (key : Text) : Except CacheFault Text × Cache :=
  match c with
  | .none => (.error (.miss key), .none)
  | .memory store =>
      if m.cancelled then (.error .cancelled, c)
      else match store.get m.now key with
        | (some value, store) => (.ok value, .memory store)
        | (.none, store) => (.error (.miss key), .memory store)

def set (c : Cache) (m : Moment) (key value : Text) (ttl : Int) : Except CacheFault Cache :=
  c.change m fun s => s.insert m.now key value ttl

def delete (c : Cache) (m : Moment) (key : Text) : Except CacheFault Cache :=
  c.change m (·.erase key)

def clear (c : Cache) (m : Moment) : Except CacheFault Cache := c.change m (·.clear)

def exists? (c : Cache) (m : Moment) (key : Text) : Except CacheFault Bool × Cache :=
  match c.get m key with
  | (.ok _, c) => (.ok true, c)
  | (.error (.miss _), c) => (.ok false, c)
  | (.error e, c) => (.error e, c)

/-- What was generated for a key. A cache that fails is as good as an empty one. -/
def lookup (c : Cache) (m : Moment) (key : Text) : Option Text × Cache :=
  match c.get m key with
  | (.ok value, c) => (some value, c)
  | (.error _, c) => (.none, c)

/-- Remembers what was generated for a key, if the cache can. -/
def store (c : Cache) (m : Moment) (key output : Text) : Cache :=
  (c.set m key output 0).toOption.getD c

/-- Forgets what was generated for a key, if the cache can. -/
def forget (c : Cache) (m : Moment) (key : Text) : Cache := (c.delete m key).toOption.getD c

end Cache

end Deriver
