/-!
# Letters and digits

A class of the Unicode standard is a table of runs: the code points from a first
to a last one, every one of them or every second one, as letters of alternating case
are. A table is written down by distances, as `runs` reads it. Which version of the
standard a table follows is said with the table; the general categories here are those
of version 17.0.
-/

namespace Deriver.Text

/-- The first and last code point of a run, and its step. -/
abbrev Run := Nat × Nat × Nat

/-- The runs of one step that a table tells of by two numbers each: how many code points
lie between a run and the one before it, and how many steps the run has. -/
def runs (step : Nat) : Nat → List Nat → List Run
  | start, gap :: steps :: rest =>
      let last := start + gap + step * steps
      (start + gap, last, step) :: runs step (last + 1) rest
  | _, _ => []

/-- Whether a code point is in one of the runs. -/
def inRuns (runs : List Run) (n : Nat) : Bool :=
  runs.any fun (first, last, step) => first ≤ n && n ≤ last && (n - first) % step == 0

/-! ## Letters -/

/-- The code points of general category L. -/
def letterRuns : List Run :=
  runs 1 0 [65,25, 6,25, 47,0, 10,0, 4,0, 5,22, 1,30, 1,457, 4,11, 14,4, 7,0, 1,0, 129,4,
    1,1, 2,3, 1,0, 6,0, 1,2, 1,0, 1,19, 1,82, 1,138, 8,165, 1,37, 2,0, 6,40, 71,26, 4,3,
    45,42, 35,1, 1,98, 1,0, 15,1, 7,1, 10,2, 2,0, 16,0, 1,29, 29,88, 11,0, 24,32, 9,1,
    4,0, 5,21, 4,0, 9,0, 3,0, 23,24, 7,10, 5,23, 1,6, 16,41, 58,53, 3,0, 18,0, 7,9, 15,15,
    4,7, 2,1, 2,21, 1,6, 1,0, 3,3, 3,0, 16,0, 13,1, 1,2, 14,1, 10,0, 8,5, 4,1, 2,21, 1,6,
    1,1, 1,1, 1,1, 31,3, 1,0, 19,2, 16,8, 1,2, 1,21, 1,6, 1,1, 1,4, 3,0, 18,0, 15,1, 23,0,
    11,7, 2,1, 2,21, 1,6, 1,1, 1,4, 3,0, 30,1, 1,2, 15,0, 17,0, 1,5, 3,2, 1,3, 3,1, 1,0,
    1,1, 3,1, 3,2, 3,11, 22,0, 52,7, 1,2, 1,22, 1,15, 3,0, 26,2, 1,1, 2,1, 30,0, 4,7, 1,2,
    1,22, 1,9, 1,4, 3,0, 30,2, 1,1, 15,1, 17,8, 1,2, 1,40, 2,0, 16,0, 5,2, 8,2, 24,5,
    5,17, 3,23, 1,8, 1,0, 2,6, 58,47, 1,1, 12,6, 58,1, 1,0, 1,4, 1,23, 1,0, 1,9, 1,1, 9,0,
    2,4, 1,0, 21,3, 32,0, 63,7, 1,35, 27,4, 115,42, 20,0, 16,5, 4,3, 3,0, 3,1, 7,2, 4,12,
    12,0, 17,37, 1,0, 5,0, 2,42, 1,332, 1,3, 2,6, 1,0, 1,3, 2,40, 1,3, 2,32, 1,3, 2,6,
    1,0, 1,3, 2,14, 1,56, 1,3, 2,66, 37,15, 16,85, 2,5, 3,619, 2,16, 1,25, 5,74, 6,7,
    7,17, 13,18, 14,17, 14,12, 1,2, 15,51, 35,0, 4,0, 67,88, 7,4, 2,33, 1,0, 5,69, 10,30,
    49,29, 2,4, 11,43, 4,25, 54,22, 9,52, 82,0, 93,46, 17,7, 54,29, 13,1, 10,43, 26,35,
    41,2, 10,35, 2,10, 5,42, 2,2, 41,3, 1,5, 1,1, 3,0, 5,191, 64,277, 2,5, 2,37, 2,5, 2,7,
    7,30, 2,52, 1,6, 1,0, 3,2, 1,6, 3,3, 2,5, 4,12, 5,2, 1,6, 116,0, 13,0, 16,12, 101,0,
    4,0, 2,9, 1,0, 3,4, 12,3, 1,10, 2,3, 5,4, 4,0, 52,1, 2683,228, 6,3, 3,1, 12,37, 1,0,
    5,0, 2,55, 7,0, 16,22, 9,6, 1,6, 1,6, 1,6, 1,6, 1,6, 1,6, 1,6, 80,0, 469,1, 42,4, 5,1,
    4,85, 6,2, 1,89, 1,3, 5,42, 1,93, 17,31, 48,15, 512,6591, 64,22156, 67,45, 2,268,
    3,15, 10,1, 20,46, 16,30, 2,69, 49,8, 2,102, 2,81, 20,16, 1,2, 1,3, 1,22, 29,51,
    14,49, 62,5, 3,0, 1,1, 11,27, 10,22, 25,28, 7,46, 28,0, 16,4, 1,9, 10,4, 1,40, 23,2,
    1,7, 20,22, 3,0, 3,49, 1,0, 3,1, 2,4, 2,0, 1,0, 24,2, 2,10, 7,2, 12,5, 2,5, 2,5, 9,6,
    1,6, 1,42, 1,13, 6,114, 29,11171, 12,22, 4,48, 8452,365, 2,105, 38,6, 12,4, 5,0, 1,9,
    1,12, 1,4, 1,0, 1,1, 1,1, 1,107, 33,362, 18,63, 2,53, 40,11, 116,4, 1,134, 36,25,
    6,25, 11,88, 3,5, 2,5, 2,5, 2,2, 35,11, 1,25, 1,18, 1,1, 1,14, 2,13, 34,122, 389,28,
    3,48, 47,31, 13,19, 1,7, 6,37, 10,29, 2,35, 4,7, 48,157, 18,35, 4,35, 4,39, 8,51,
    12,10, 1,14, 1,6, 1,1, 1,10, 1,14, 1,6, 1,1, 3,51, 12,310, 9,21, 10,7, 24,5, 1,41,
    1,8, 69,5, 2,0, 1,43, 1,1, 3,0, 2,22, 10,22, 9,30, 65,18, 1,1, 10,21, 10,25, 6,25,
    38,55, 6,1, 64,0, 15,3, 1,2, 1,28, 42,28, 3,28, 35,7, 1,27, 27,53, 10,21, 10,18,
    13,17, 110,72, 55,50, 13,50, 13,35, 38,27, 9,22, 250,41, 6,1, 16,5, 56,28, 10,0, 8,21,
    42,17, 46,20, 27,22, 12,52, 57,1, 2,0, 13,44, 32,24, 26,35, 29,0, 2,0, 8,34, 3,0,
    12,47, 14,3, 21,0, 1,0, 35,17, 1,24, 19,1, 63,6, 1,0, 1,3, 1,14, 1,9, 7,46, 38,7, 2,1,
    2,21, 1,6, 1,1, 1,4, 3,0, 18,0, 12,4, 30,9, 1,0, 2,0, 1,37, 1,0, 25,0, 1,0, 44,52,
    18,3, 20,2, 30,47, 20,1, 1,0, 184,46, 41,3, 36,47, 20,0, 59,42, 13,0, 71,26, 37,6,
    185,43, 116,63, 31,7, 2,0, 2,7, 1,1, 1,23, 15,0, 1,0, 94,7, 2,38, 16,0, 1,0, 28,0,
    10,39, 7,0, 21,0, 11,45, 19,0, 18,72, 199,32, 31,8, 1,36, 17,0, 49,29, 112,6, 1,1,
    1,37, 21,0, 25,5, 1,1, 1,31, 14,0, 23,43, 260,18, 15,0, 1,12, 1,33, 124,0, 79,921,
    230,195, 2636,96, 15,1071, 17,5, 25,3994, 5,582, 6841,29, 1762,568, 7,30, 17,78,
    17,29, 18,47, 16,3, 31,20, 5,18, 432,44, 211,63, 32,24, 2,24, 44,74, 5,0, 66,12, 64,1,
    1,0, 14,1, 12,7381, 41,31, 97,114, 8701,3, 1,6, 1,1, 1,290, 15,0, 29,2, 2,0, 14,3,
    8,395, 2308,106, 5,12, 3,8, 7,9, 5990,84, 1,70, 1,1, 2,0, 2,1, 2,3, 1,11, 1,0, 1,6,
    1,64, 1,3, 2,7, 1,6, 1,27, 1,3, 1,4, 1,0, 3,6, 1,339, 2,24, 1,24, 1,30, 1,24, 1,30,
    1,24, 1,30, 1,24, 1,30, 1,24, 1,7, 1844,30, 6,5, 261,61, 146,44, 10,6, 16,0, 321,29,
    18,43, 484,27, 228,29, 2,0, 207,30, 1,2, 1,1, 1,6, 2,4, 9,1, 224,6, 1,3, 1,1, 1,14,
    1,196, 59,67, 7,0, 1204,3, 1,26, 1,1, 1,0, 2,0, 1,9, 1,3, 1,0, 1,0, 6,0, 10,2, 1,1,
    1,0, 12,1, 1,0, 2,3, 1,6, 1,3, 1,3, 1,0, 1,9, 1,16, 5,2, 1,4, 1,16, 4420,42719,
    32,4381, 2,5773, 2,7472, 15,621, 2466,541, 1506,4938, 5,8489] ++
    runs 2 0 [8025,2, 454,2, 118046,2, 11,4]

/-- Whether a character is a letter of any script. -/
def isLetter (c : Char) : Bool :=
  if c.toNat < 0x80 then c.isAlpha else inRuns letterRuns c.toNat

/-! ## Upper-case letters -/

/-- The code points of general category Lu. -/
def upperRuns : List Run :=
  runs 1 0 [65,25, 101,22, 1,6, 153,1, 1,0, 1,0, 3,1, 1,0, 1,1, 1,2, 2,3, 1,1, 1,2, 3,1,
    1,1, 1,0, 1,0, 1,1, 1,0, 2,0, 1,1, 1,2, 1,0, 1,1, 3,0, 7,0, 2,0, 2,0, 38,0, 2,0, 1,2,
    65,1, 1,1, 2,0, 1,3, 297,0, 1,0, 3,0, 8,0, 6,0, 1,2, 1,0, 1,1, 1,16, 1,8, 35,0, 2,2,
    31,0, 2,0, 1,1, 2,50, 144,1, 111,37, 2889,37, 1,0, 5,0, 722,85, 2195,0, 6,42, 2,2,
    584,7, 8,5, 10,7, 8,7, 8,5, 26,7, 72,3, 12,3, 12,3, 12,4, 11,3, 262,0, 4,0, 3,2, 2,2,
    2,0, 3,4, 12,3, 2,3, 10,1, 5,0, 61,0, 2684,47, 48,0, 1,2, 8,3, 1,0, 2,0, 8,2, 106,0,
    1,0, 4,0, 31366,0, 1,0, 1,1, 12,0, 1,0, 2,0, 1,0, 23,4, 1,4, 15,3, 1,0, 1,1, 40,0,
    22315,25, 1221,39, 136,35, 156,10, 1,14, 1,6, 1,1, 1770,50, 157,21, 2874,31, 21888,31,
    64,24, 25927,25, 26,25, 26,25, 26,0, 1,1, 2,0, 2,1, 2,3, 1,7, 26,25, 26,1, 1,3, 2,7,
    1,6, 27,1, 1,3, 1,4, 1,0, 3,6, 27,25, 26,25, 26,25, 26,25, 26,25, 26,25, 30,24, 33,24,
    33,24, 33,24, 33,24, 33,0, 4405,33] ++
    runs 2 0 [256,27, 2,7, 2,22, 86,7, 2,8, 11,28, 21,3, 393,11, 113,16, 9,26, 4,5, 2,47,
    6353,74, 9,48, 90,3, 452,2, 2878,2, 22,48, 31069,22, 19,13, 135,6, 3,30, 17,3, 15,9,
    13,6, 11,7]

/-- Whether a character is an upper-case letter. -/
def isUpperCase (c : Char) : Bool :=
  if c.toNat < 0x80 then c.isUpper else inRuns upperRuns c.toNat

/-! ## Lower-case letters -/

/-- The code points of general category Ll. -/
def lowerRuns : List Run :=
  runs 1 0 [97,25, 58,0, 41,23, 1,7, 55,1, 15,1, 48,0, 1,0, 1,2, 2,0, 1,0, 2,0, 3,1, 4,0,
    2,0, 3,2, 2,0, 9,0, 1,1, 1,0, 2,0, 3,0, 1,0, 2,1, 2,2, 6,0, 2,0, 18,1, 17,1, 2,0, 1,0,
    61,6, 2,0, 2,1, 1,0, 12,68, 2,25, 193,0, 1,0, 3,0, 3,2, 18,0, 27,34, 1,1, 3,2, 23,4,
    1,0, 2,0, 2,1, 51,47, 110,1, 144,40, 2887,42, 2,2, 760,5, 2178,8, 1,0, 117,43, 63,12,
    1,33, 250,8, 97,8, 8,5, 10,7, 8,7, 8,5, 10,7, 8,7, 8,13, 2,7, 8,7, 8,7, 8,4, 1,1, 6,0,
    3,2, 1,1, 8,3, 2,1, 8,7, 10,2, 1,1, 274,0, 3,1, 3,0, 27,0, 4,0, 4,0, 2,1, 8,3, 4,0,
    53,0, 2731,47, 1,0, 3,1, 10,0, 1,1, 1,5, 103,1, 7,0, 1,0, 4,0, 12,37, 1,0, 5,0,
    31233,2, 63,7, 1,0, 1,0, 15,0, 1,0, 2,0, 1,2, 25,0, 24,0, 1,0, 43,0, 3,0, 821,42, 5,8,
    7,79, 20288,6, 12,4, 1065,25, 1229,39, 136,35, 155,10, 1,14, 1,6, 1,1, 1795,50,
    125,21, 2874,31, 21888,31, 59,24, 25926,25, 26,6, 1,17, 26,25, 26,3, 1,0, 1,6, 1,10,
    26,25, 26,25, 26,25, 26,25, 26,25, 26,25, 26,25, 26,25, 26,27, 28,24, 1,5, 26,24, 1,5,
    26,24, 1,5, 26,24, 1,5, 26,24, 1,5, 1,0, 1844,9, 1,19, 6,5, 2551,33] ++
    runs 2 0 [257,26, 4,6, 4,22, 41,2, 38,7, 4,7, 11,28, 21,3, 395,10, 115,16, 9,26, 2,5,
    4,47, 6353,73, 11,47, 3434,2, 20,48, 31071,22, 19,13, 135,5, 5,30, 15,4, 15,9, 11,7,
    9,7]

/-- Whether a character is a lower-case letter. -/
def isLowerCase (c : Char) : Bool :=
  if c.toNat < 0x80 then c.isLower else inRuns lowerRuns c.toNat

/-! ## Decimal digits -/

/-- The code points of general category Nd. -/
def digitRuns : List Run :=
  runs 1 0 [48,9, 1574,9, 134,9, 198,9, 412,9, 118,9, 118,9, 118,9, 118,9, 118,9, 118,9,
    118,9, 118,9, 118,9, 96,9, 118,9, 70,9, 278,9, 70,9, 1862,9, 38,9, 300,9, 128,9,
    166,9, 6,9, 182,9, 86,9, 134,9, 6,9, 35270,9, 678,9, 38,9, 198,9, 22,9, 86,9, 406,9,
    21270,9, 1414,9, 2182,9, 6,9, 796,9, 128,9, 60,9, 144,9, 278,9, 342,9, 118,9, 374,9,
    102,9, 6,19, 76,9, 422,9, 102,9, 662,9, 86,9, 246,9, 70,9, 54,9, 358,9, 16854,9,
    2342,9, 86,9, 134,9, 534,9, 24438,9, 2772,49, 2368,9, 422,9, 502,9, 247,9, 853,9,
    4758,9]

/-- Whether a character is a decimal digit of any script. -/
def isDecimal (c : Char) : Bool :=
  if c.toNat < 0x80 then c.isDigit else inRuns digitRuns c.toNat

end Deriver.Text
