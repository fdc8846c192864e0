import Deriver.Text.Class.Letter

/-!
# What casing asks of a character

Derived properties of characters, with the data of version 15.0 of the Unicode
standard, as all casing.
-/

/-!
## Case mappings

The simple mappings take a character to one character and are tables of shifts;
the full mappings take a few characters to several. Both are data of the Unicode
standard, version 15.0; the pairs of letters that came with versions 16.0 and 17.0
have tables of their own, because not every rule knows them.
-/

namespace Deriver.Text

/-- A run of code points that are moved by the same distance: first, last, step, and
where the first one goes. -/
abbrev Shift := Nat × Nat × Nat × Nat

/-- The shifts of one step that a table tells of by three numbers each: how many code
points lie between a run and the one before it, how many steps it has, and its image. -/
def shifts (step : Nat) : Nat → List Nat → List Shift
  | start, gap :: steps :: image :: rest =>
      let last := start + gap + step * steps
      (start + gap, last, step, image) :: shifts step (last + 1) rest
  | _, _ => []

/-- The code point a table of shifts takes `n` to. -/
def shiftBy (table : List Shift) (n : Nat) : Nat :=
  match table.find? fun (first, last, step, _) =>
      first ≤ n && n ≤ last && (n - first) % step == 0 with
  | some (first, _, _, image) => image + (n - first)
  | none => n

/-- The simple lower-case mapping. -/
def lowerShifts : List Shift :=
  shifts 1 0 [65,25,97, 101,22,224, 1,6,248, 81,0,105, 71,0,255, 8,0,595, 4,0,596,
    0,0,392, 1,1,598, 0,0,396, 2,0,477, 0,0,601, 0,0,603, 0,0,402, 1,0,608, 0,0,611,
    1,0,617, 0,0,616, 0,0,409, 3,0,623, 0,0,626, 1,0,629, 6,0,640, 0,0,424, 1,0,643,
    2,0,429, 1,0,648, 0,0,432, 1,1,650, 4,0,658, 0,0,441, 3,0,445, 7,0,454, 0,0,454,
    1,0,457, 0,0,457, 1,0,460, 38,0,499, 4,0,405, 0,0,447, 40,0,414, 25,0,11365, 0,0,572,
    1,0,410, 0,0,11366, 2,0,578, 1,0,384, 0,0,649, 0,0,652, 304,0,887, 8,0,1011, 6,0,940,
    1,2,941, 1,0,972, 1,1,973, 1,16,945, 1,8,963, 35,0,983, 36,0,952, 2,0,1016, 1,0,1010,
    0,0,1019, 2,2,891, 0,15,1104, 0,31,1072, 144,0,1231, 112,37,1377, 2889,37,11520,
    1,0,11559, 5,0,11565, 722,79,43888, 0,5,5112, 2202,42,4304, 2,2,4349, 478,0,223,
    105,7,7936, 8,5,7952, 10,7,7968, 8,7,7984, 8,5,8000, 26,7,8032, 24,7,8064, 8,7,8080,
    8,7,8096, 8,1,8112, 0,1,8048, 0,0,8115, 11,3,8050, 0,0,8131, 11,1,8144, 0,1,8054,
    12,1,8160, 0,1,8058, 0,0,8165, 11,1,8056, 0,1,8060, 0,0,8179, 297,0,969, 3,0,107,
    0,0,229, 6,0,8526, 45,15,8560, 19,0,8580, 818,25,9424, 1840,47,11312, 48,0,11361,
    1,0,619, 0,0,7549, 0,0,637, 8,0,593, 0,0,625, 0,0,592, 0,0,594, 1,0,11379, 2,0,11382,
    8,1,575, 114,0,11507, 31370,0,7545, 13,0,42892, 1,0,613, 28,0,614, 0,0,604, 0,0,609,
    0,0,620, 0,0,618, 1,0,670, 0,0,647, 0,0,669, 0,0,43859, 16,0,42900, 0,0,642, 0,0,7566,
    9,0,42961, 36,0,42998, 22315,25,65345, 1221,39,66600, 136,35,66776, 156,10,66967,
    1,14,66979, 1,6,66995, 1,1,67003, 1770,50,68800, 3053,31,71872, 21888,31,93792,
    31392,33,125218] ++
    shifts 2 0 [256,23,257, 3,2,307, 2,7,314, 2,22,331, 2,2,378, 4,1,387, 27,2,417,
    14,1,436, 21,8,460, 2,8,479, 3,1,499, 3,19,505, 3,8,547, 19,4,583, 289,1,881,
    101,11,985, 113,16,1121, 9,26,1163, 2,6,1218, 2,47,1233, 6353,74,7681, 11,47,7841,
    90,3,8017, 3335,2,11368, 20,49,11393, 8,1,11500, 31058,22,42561, 19,13,42625,
    135,6,42787, 3,30,42803, 10,1,42874, 2,4,42879, 9,1,42897, 3,9,42903, 11,7,42933,
    4,1,42952, 12,1,42967]

/-- The simple upper-case mapping. -/
def upperShifts : List Shift :=
  shifts 1 0 [97,25,65, 58,0,924, 42,22,192, 1,6,216, 0,0,376, 49,0,73, 77,0,83, 0,0,579,
    7,0,391, 3,0,395, 5,0,401, 2,0,502, 3,0,408, 0,0,573, 3,0,544, 9,0,423, 4,0,428,
    2,0,431, 8,0,440, 3,0,444, 1,0,503, 5,0,452, 0,0,452, 1,0,455, 0,0,455, 1,0,458,
    0,0,458, 16,0,398, 20,0,497, 0,0,497, 1,0,500, 70,0,571, 2,1,11390, 1,0,577,
    13,0,11375, 0,0,11373, 0,0,11376, 0,0,385, 0,0,390, 1,1,393, 1,0,399, 1,0,400,
    0,0,42923, 3,0,403, 0,0,42924, 1,0,404, 1,0,42893, 0,0,42922, 1,0,407, 0,0,406,
    0,0,42926, 0,0,11362, 0,0,42925, 2,0,412, 1,0,11374, 0,0,413, 2,0,415, 7,0,11364,
    2,0,422, 1,0,42949, 0,0,425, 3,0,42929, 0,0,430, 0,0,580, 0,1,433, 0,0,581, 5,0,439,
    10,0,42930, 0,0,42928, 166,0,921, 49,0,886, 3,2,1021, 46,0,902, 0,2,904, 1,16,913,
    0,0,931, 0,8,931, 0,0,908, 0,1,910, 1,0,914, 0,0,920, 3,0,934, 0,0,928, 0,0,975,
    24,0,922, 0,0,929, 0,0,1017, 0,0,895, 1,0,917, 2,0,1015, 2,0,1018, 52,31,1040,
    0,15,1024, 111,0,1216, 145,37,1329, 2889,42,7312, 2,2,7357, 760,5,5104, 2178,0,1042,
    0,0,1044, 0,0,1054, 0,1,1057, 0,0,1058, 0,0,1066, 0,0,1122, 0,0,42570, 240,0,42877,
    3,0,11363, 16,0,42950, 268,0,7776, 100,7,7944, 8,5,7960, 10,7,7976, 8,7,7992,
    8,5,8008, 26,7,8040, 8,1,8122, 0,3,8136, 0,1,8154, 0,1,8184, 0,1,8170, 0,1,8186,
    2,7,8072, 8,7,8088, 8,7,8104, 8,1,8120, 1,0,8124, 10,0,921, 4,0,8140, 12,1,8152,
    14,1,8168, 3,0,8172, 13,0,8188, 346,0,8498, 33,15,8544, 4,0,8579, 843,25,9398,
    1862,47,11264, 1,0,11360, 3,0,570, 0,0,574, 12,0,11378, 2,0,11381, 124,0,11506,
    12,37,4256, 1,0,4295, 5,0,4301, 31326,0,42891, 7,0,42948, 60,0,42960, 36,0,42997,
    860,0,42931, 28,79,5024, 21377,25,65313, 1229,39,66560, 136,35,66736, 155,10,66928,
    1,14,66940, 1,6,66956, 1,1,66964, 1795,50,68736, 3021,31,71840, 21888,31,93760,
    31394,33,125184] ++
    shifts 2 0 [257,23,256, 3,2,306, 2,7,313, 2,22,330, 2,2,377, 4,1,386, 27,2,416,
    14,1,435, 23,7,461, 2,8,478, 9,19,504, 3,8,546, 19,4,582, 289,1,880, 101,11,984,
    113,16,1120, 9,26,1162, 2,6,1217, 2,47,1232, 6353,74,7680, 11,47,7840, 81,3,8025,
    3344,2,11367, 20,49,11392, 8,1,11499, 31058,22,42560, 19,13,42624, 135,6,42786,
    3,30,42802, 10,1,42873, 2,4,42878, 9,1,42896, 3,9,42902, 11,7,42932, 4,1,42951,
    12,1,42966]

/-- The small forms of the capitals that came later. -/
def laterLowerShifts : List Shift :=
  [(0x1c89, 0x1c89, 1, 0x1c8a), (0xa7cb, 0xa7cb, 1, 0x264), (0xa7cc, 0xa7ce, 2, 0xa7cd),
   (0xa7d2, 0xa7d4, 2, 0xa7d3), (0xa7da, 0xa7da, 1, 0xa7db), (0xa7dc, 0xa7dc, 1, 0x19b),
   (0x10d50, 0x10d65, 1, 0x10d70), (0x16ea0, 0x16eb8, 1, 0x16ebb)]

/-- The capitals that came later. -/
def laterUpperShifts : List Shift :=
  [(0x19b, 0x19b, 1, 0xa7dc), (0x264, 0x264, 1, 0xa7cb), (0x1c8a, 0x1c8a, 1, 0x1c89),
   (0xa7cd, 0xa7cf, 2, 0xa7cc), (0xa7d3, 0xa7d5, 2, 0xa7d2), (0xa7db, 0xa7db, 1, 0xa7da),
   (0x10d70, 0x10d85, 1, 0x10d50), (0x16ebb, 0x16ed3, 1, 0x16ea0)]

/-- Where the simple title-case mapping differs from the upper-case one. -/
def titleShifts : List Shift :=
  [(0x1c4, 0x1c4, 1, 0x1c5), (0x1c6, 0x1c6, 1, 0x1c5), (0x1c7, 0x1c7, 1, 0x1c8),
   (0x1c9, 0x1c9, 1, 0x1c8), (0x1ca, 0x1ca, 1, 0x1cb), (0x1cc, 0x1cc, 1, 0x1cb),
   (0x1f1, 0x1f1, 1, 0x1f2), (0x1f3, 0x1f3, 1, 0x1f2)]

/-- The letters whose title-case form is themselves although they have an upper-case
form. -/
def titleFixed : List Run :=
  [(0x1c5, 0x1c5, 1), (0x1c8, 0x1c8, 1), (0x1cb, 0x1cb, 1), (0x1f2, 0x1f2, 1),
   (0x10d0, 0x10fa, 1), (0x10fd, 0x10ff, 1)]

/-- The characters whose upper-case form is several characters. -/
def upperWide : List (Nat × List Nat) :=
  [(0xdf, [0x53, 0x53]), (0x149, [0x2bc, 0x4e]), (0x1f0, [0x4a, 0x30c]),
   (0x390, [0x399, 0x308, 0x301]), (0x3b0, [0x3a5, 0x308, 0x301]), (0x587, [0x535, 0x552]),
   (0x1e96, [0x48, 0x331]), (0x1e97, [0x54, 0x308]), (0x1e98, [0x57, 0x30a]),
   (0x1e99, [0x59, 0x30a]), (0x1e9a, [0x41, 0x2be]), (0x1f50, [0x3a5, 0x313]),
   (0x1f52, [0x3a5, 0x313, 0x300]), (0x1f54, [0x3a5, 0x313, 0x301]),
   (0x1f56, [0x3a5, 0x313, 0x342]), (0x1f80, [0x1f08, 0x399]), (0x1f81, [0x1f09, 0x399]),
   (0x1f82, [0x1f0a, 0x399]), (0x1f83, [0x1f0b, 0x399]), (0x1f84, [0x1f0c, 0x399]),
   (0x1f85, [0x1f0d, 0x399]), (0x1f86, [0x1f0e, 0x399]), (0x1f87, [0x1f0f, 0x399]),
   (0x1f88, [0x1f08, 0x399]), (0x1f89, [0x1f09, 0x399]), (0x1f8a, [0x1f0a, 0x399]),
   (0x1f8b, [0x1f0b, 0x399]), (0x1f8c, [0x1f0c, 0x399]), (0x1f8d, [0x1f0d, 0x399]),
   (0x1f8e, [0x1f0e, 0x399]), (0x1f8f, [0x1f0f, 0x399]), (0x1f90, [0x1f28, 0x399]),
   (0x1f91, [0x1f29, 0x399]), (0x1f92, [0x1f2a, 0x399]), (0x1f93, [0x1f2b, 0x399]),
   (0x1f94, [0x1f2c, 0x399]), (0x1f95, [0x1f2d, 0x399]), (0x1f96, [0x1f2e, 0x399]),
   (0x1f97, [0x1f2f, 0x399]), (0x1f98, [0x1f28, 0x399]), (0x1f99, [0x1f29, 0x399]),
   (0x1f9a, [0x1f2a, 0x399]), (0x1f9b, [0x1f2b, 0x399]), (0x1f9c, [0x1f2c, 0x399]),
   (0x1f9d, [0x1f2d, 0x399]), (0x1f9e, [0x1f2e, 0x399]), (0x1f9f, [0x1f2f, 0x399]),
   (0x1fa0, [0x1f68, 0x399]), (0x1fa1, [0x1f69, 0x399]), (0x1fa2, [0x1f6a, 0x399]),
   (0x1fa3, [0x1f6b, 0x399]), (0x1fa4, [0x1f6c, 0x399]), (0x1fa5, [0x1f6d, 0x399]),
   (0x1fa6, [0x1f6e, 0x399]), (0x1fa7, [0x1f6f, 0x399]), (0x1fa8, [0x1f68, 0x399]),
   (0x1fa9, [0x1f69, 0x399]), (0x1faa, [0x1f6a, 0x399]), (0x1fab, [0x1f6b, 0x399]),
   (0x1fac, [0x1f6c, 0x399]), (0x1fad, [0x1f6d, 0x399]), (0x1fae, [0x1f6e, 0x399]),
   (0x1faf, [0x1f6f, 0x399]), (0x1fb2, [0x1fba, 0x399]), (0x1fb3, [0x391, 0x399]),
   (0x1fb4, [0x386, 0x399]), (0x1fb6, [0x391, 0x342]), (0x1fb7, [0x391, 0x342, 0x399]),
   (0x1fbc, [0x391, 0x399]), (0x1fc2, [0x1fca, 0x399]), (0x1fc3, [0x397, 0x399]),
   (0x1fc4, [0x389, 0x399]), (0x1fc6, [0x397, 0x342]), (0x1fc7, [0x397, 0x342, 0x399]),
   (0x1fcc, [0x397, 0x399]), (0x1fd2, [0x399, 0x308, 0x300]),
   (0x1fd3, [0x399, 0x308, 0x301]),
   (0x1fd6, [0x399, 0x342]), (0x1fd7, [0x399, 0x308, 0x342]),
   (0x1fe2, [0x3a5, 0x308, 0x300]),
   (0x1fe3, [0x3a5, 0x308, 0x301]), (0x1fe4, [0x3a1, 0x313]), (0x1fe6, [0x3a5, 0x342]),
   (0x1fe7, [0x3a5, 0x308, 0x342]), (0x1ff2, [0x1ffa, 0x399]), (0x1ff3, [0x3a9, 0x399]),
   (0x1ff4, [0x38f, 0x399]), (0x1ff6, [0x3a9, 0x342]), (0x1ff7, [0x3a9, 0x342, 0x399]),
   (0x1ffc, [0x3a9, 0x399]), (0xfb00, [0x46, 0x46]), (0xfb01, [0x46, 0x49]),
   (0xfb02, [0x46, 0x4c]), (0xfb03, [0x46, 0x46, 0x49]), (0xfb04, [0x46, 0x46, 0x4c]),
   (0xfb05, [0x53, 0x54]), (0xfb06, [0x53, 0x54]), (0xfb13, [0x544, 0x546]),
   (0xfb14, [0x544, 0x535]), (0xfb15, [0x544, 0x53b]), (0xfb16, [0x54e, 0x546]),
   (0xfb17, [0x544, 0x53d])]

/-- The title-case forms of the same characters. -/
def titleWide : List (Nat × List Nat) :=
  [(0xdf, [0x53, 0x73]), (0x149, [0x2bc, 0x4e]), (0x1f0, [0x4a, 0x30c]),
   (0x390, [0x399, 0x308, 0x301]), (0x3b0, [0x3a5, 0x308, 0x301]), (0x587, [0x535, 0x582]),
   (0x1e96, [0x48, 0x331]), (0x1e97, [0x54, 0x308]), (0x1e98, [0x57, 0x30a]),
   (0x1e99, [0x59, 0x30a]), (0x1e9a, [0x41, 0x2be]), (0x1f50, [0x3a5, 0x313]),
   (0x1f52, [0x3a5, 0x313, 0x300]), (0x1f54, [0x3a5, 0x313, 0x301]),
   (0x1f56, [0x3a5, 0x313, 0x342]), (0x1f80, [0x1f88]), (0x1f81, [0x1f89]),
   (0x1f82, [0x1f8a]), (0x1f83, [0x1f8b]), (0x1f84, [0x1f8c]), (0x1f85, [0x1f8d]),
   (0x1f86, [0x1f8e]), (0x1f87, [0x1f8f]), (0x1f88, [0x1f88]), (0x1f89, [0x1f89]),
   (0x1f8a, [0x1f8a]), (0x1f8b, [0x1f8b]), (0x1f8c, [0x1f8c]), (0x1f8d, [0x1f8d]),
   (0x1f8e, [0x1f8e]), (0x1f8f, [0x1f8f]), (0x1f90, [0x1f98]), (0x1f91, [0x1f99]),
   (0x1f92, [0x1f9a]), (0x1f93, [0x1f9b]), (0x1f94, [0x1f9c]), (0x1f95, [0x1f9d]),
   (0x1f96, [0x1f9e]), (0x1f97, [0x1f9f]), (0x1f98, [0x1f98]), (0x1f99, [0x1f99]),
   (0x1f9a, [0x1f9a]), (0x1f9b, [0x1f9b]), (0x1f9c, [0x1f9c]), (0x1f9d, [0x1f9d]),
   (0x1f9e, [0x1f9e]), (0x1f9f, [0x1f9f]), (0x1fa0, [0x1fa8]), (0x1fa1, [0x1fa9]),
   (0x1fa2, [0x1faa]), (0x1fa3, [0x1fab]), (0x1fa4, [0x1fac]), (0x1fa5, [0x1fad]),
   (0x1fa6, [0x1fae]), (0x1fa7, [0x1faf]), (0x1fa8, [0x1fa8]), (0x1fa9, [0x1fa9]),
   (0x1faa, [0x1faa]), (0x1fab, [0x1fab]), (0x1fac, [0x1fac]), (0x1fad, [0x1fad]),
   (0x1fae, [0x1fae]), (0x1faf, [0x1faf]), (0x1fb2, [0x1fba, 0x345]), (0x1fb3, [0x1fbc]),
   (0x1fb4, [0x386, 0x345]), (0x1fb6, [0x391, 0x342]), (0x1fb7, [0x391, 0x342, 0x345]),
   (0x1fbc, [0x1fbc]), (0x1fc2, [0x1fca, 0x345]), (0x1fc3, [0x1fcc]),
   (0x1fc4, [0x389, 0x345]), (0x1fc6, [0x397, 0x342]), (0x1fc7, [0x397, 0x342, 0x345]),
   (0x1fcc, [0x1fcc]), (0x1fd2, [0x399, 0x308, 0x300]), (0x1fd3, [0x399, 0x308, 0x301]),
   (0x1fd6, [0x399, 0x342]), (0x1fd7, [0x399, 0x308, 0x342]),
   (0x1fe2, [0x3a5, 0x308, 0x300]), (0x1fe3, [0x3a5, 0x308, 0x301]),
   (0x1fe4, [0x3a1, 0x313]), (0x1fe6, [0x3a5, 0x342]),
   (0x1fe7, [0x3a5, 0x308, 0x342]), (0x1ff2, [0x1ffa, 0x345]), (0x1ff3, [0x1ffc]),
   (0x1ff4, [0x38f, 0x345]), (0x1ff6, [0x3a9, 0x342]), (0x1ff7, [0x3a9, 0x342, 0x345]),
   (0x1ffc, [0x1ffc]), (0xfb00, [0x46, 0x66]), (0xfb01, [0x46, 0x69]),
   (0xfb02, [0x46, 0x6c]), (0xfb03, [0x46, 0x66, 0x69]), (0xfb04, [0x46, 0x66, 0x6c]),
   (0xfb05, [0x53, 0x74]), (0xfb06, [0x53, 0x74]), (0xfb13, [0x544, 0x576]),
   (0xfb14, [0x544, 0x565]), (0xfb15, [0x544, 0x56b]), (0xfb16, [0x54e, 0x576]),
   (0xfb17, [0x544, 0x56d])]

end Deriver.Text

namespace Deriver.Text

/-! ## Cased characters -/

/-- The code points of the derived property Cased. -/
def casedRuns : List Run :=
  runs 1 0 [65,25, 6,25, 47,0, 10,0, 4,0, 5,22, 1,30, 1,194, 1,3, 4,207, 1,35, 7,1, 30,4,
    96,0, 42,3, 2,1, 2,3, 1,0, 6,0, 1,2, 1,0, 1,19, 1,82, 1,138, 8,165, 1,37, 9,40,
    2839,37, 1,0, 5,0, 2,42, 1,3, 672,85, 2,5, 2178,8, 7,42, 2,2, 64,191, 64,277, 2,5,
    2,37, 2,5, 2,7, 7,30, 2,52, 1,6, 1,0, 3,2, 1,6, 3,3, 2,5, 4,12, 5,2, 1,6, 116,0, 13,0,
    16,12, 101,0, 4,0, 2,9, 1,0, 3,4, 12,3, 1,5, 4,0, 2,3, 5,4, 4,0, 17,31, 3,1, 817,51,
    1814,228, 6,3, 3,1, 12,37, 1,0, 5,0, 30994,45, 18,29, 132,101, 3,3, 1,58, 5,1, 1,0,
    1,4, 24,4, 1,2, 821,42, 1,13, 6,79, 20288,6, 12,4, 1033,25, 6,25, 1189,79, 96,35,
    4,35, 116,10, 1,14, 1,6, 1,1, 1,10, 1,14, 1,6, 1,1, 451,0, 2,2, 1,41, 1,8, 1221,50,
    13,50, 2989,63, 21856,63, 25984,84, 1,70, 1,1, 2,0, 2,1, 2,3, 1,11, 1,0, 1,6, 1,64,
    1,3, 2,7, 1,6, 1,27, 1,3, 1,4, 1,0, 3,6, 1,339, 2,24, 1,24, 1,30, 1,24, 1,30, 1,24,
    1,30, 1,24, 1,30, 1,24, 1,7, 1844,9, 1,19, 6,5, 261,61, 2194,67, 2028,25, 6,25, 6,25] ++
    runs 2 0 [8025,2, 454,2]

/-- Whether a character has case: it is lower, upper or title case. -/
def isCased (c : Char) : Bool :=
  if c.toNat < 0x80 then c.isAlpha else inRuns casedRuns c.toNat

/-! ## Characters that casing passes over -/

/-- The code points of the derived property Case_Ignorable. -/
def caseIgnorableRuns : List Run :=
  runs 1 0 [39,0, 6,0, 11,0, 35,0, 1,0, 71,0, 4,0, 1,0, 4,0, 2,1, 503,191, 4,1, 4,0, 9,1,
    1,0, 251,6, 207,0, 5,0, 49,44, 1,0, 1,1, 1,1, 1,0, 44,0, 11,5, 10,10, 1,0, 35,0,
    10,20, 16,0, 101,7, 1,9, 1,3, 33,0, 1,0, 30,26, 91,10, 58,10, 4,0, 2,0, 24,23, 43,2,
    44,0, 7,1, 6,7, 41,57, 55,0, 1,0, 4,7, 4,0, 3,6, 10,1, 13,0, 15,0, 58,0, 4,3, 8,0,
    20,1, 26,0, 2,1, 57,0, 4,1, 4,1, 2,2, 3,0, 30,1, 3,0, 11,1, 57,0, 4,4, 1,1, 4,0, 20,1,
    22,5, 1,0, 58,0, 2,0, 1,3, 8,0, 7,1, 11,1, 30,0, 61,0, 12,0, 50,0, 3,0, 55,0, 1,2,
    5,2, 1,3, 7,1, 11,1, 29,0, 58,0, 2,0, 6,0, 5,1, 20,1, 28,1, 57,1, 4,3, 8,0, 20,1,
    29,0, 72,0, 7,2, 1,0, 90,0, 2,6, 11,8, 98,0, 2,8, 9,0, 1,6, 73,1, 87,13, 1,4, 1,1,
    5,10, 1,35, 9,0, 102,3, 1,5, 1,1, 2,1, 25,1, 4,2, 16,3, 13,0, 2,1, 6,0, 15,0, 94,0,
    608,2, 946,2, 29,1, 30,1, 30,1, 64,1, 1,6, 8,0, 2,10, 3,0, 5,0, 45,4, 51,0, 65,1,
    34,0, 118,2, 4,1, 9,0, 6,2, 219,1, 2,0, 58,0, 1,6, 1,0, 1,0, 2,7, 6,9, 2,0, 39,0,
    8,30, 49,3, 48,0, 1,4, 1,0, 5,0, 40,8, 12,1, 32,3, 2,1, 1,2, 56,0, 1,1, 3,0, 1,2,
    58,7, 2,1, 64,5, 82,2, 1,12, 1,6, 4,0, 6,0, 3,1, 50,62, 13,0, 34,100, 445,0, 1,2,
    11,2, 13,2, 13,2, 13,1, 12,4, 8,1, 10,0, 2,0, 2,4, 49,4, 1,9, 1,0, 13,0, 16,12, 51,32,
    2955,1, 113,2, 125,0, 15,0, 96,31, 47,0, 469,0, 36,3, 3,4, 5,0, 93,5, 93,2, 28438,0,
    1250,5, 270,0, 98,3, 1,9, 1,0, 28,3, 80,1, 14,33, 78,0, 23,2, 103,2, 3,1, 8,0, 3,0,
    4,0, 25,1, 5,0, 151,1, 26,17, 13,0, 38,7, 25,10, 46,2, 48,0, 2,3, 2,1, 17,0, 21,1,
    66,5, 2,1, 2,1, 12,0, 8,0, 35,0, 11,0, 51,0, 1,2, 2,1, 5,1, 1,0, 27,0, 14,1, 5,1, 1,0,
    100,4, 9,2, 121,0, 2,0, 4,0, 20272,0, 147,16, 573,15, 3,0, 12,15, 34,0, 2,0, 169,0,
    7,0, 6,0, 11,0, 35,0, 1,0, 47,0, 45,1, 67,0, 21,2, 513,0, 226,0, 149,4, 1029,5, 1,41,
    1,8, 582,2, 1,1, 5,3, 40,2, 4,0, 165,1, 573,3, 387,1, 80,2, 70,10, 49,3, 123,0, 54,14,
    41,0, 2,1, 10,2, 49,3, 2,1, 2,0, 4,0, 10,0, 50,2, 36,4, 1,7, 62,0, 12,1, 52,8, 10,3,
    2,0, 95,2, 2,0, 1,1, 6,0, 2,0, 157,0, 3,7, 21,1, 57,1, 3,0, 37,6, 3,4, 195,7, 2,2,
    1,0, 23,0, 84,5, 1,0, 4,1, 1,1, 238,3, 6,1, 1,1, 27,1, 85,7, 2,0, 1,1, 106,0, 1,0,
    2,5, 1,0, 101,2, 2,3, 1,4, 259,8, 1,1, 256,1, 1,0, 4,0, 144,3, 2,1, 4,0, 32,9, 40,5,
    2,3, 8,0, 9,5, 2,2, 46,12, 1,1, 406,6, 1,5, 1,0, 82,21, 2,6, 1,1, 1,1, 122,5, 3,0,
    1,1, 1,6, 1,0, 72,1, 3,0, 1,0, 347,1, 11,1, 52,4, 5,0, 1,0, 5357,16, 6,14, 13978,4,
    59,6, 9,3, 1035,0, 63,16, 64,1, 1,1, 16395,3, 1,6, 1,1, 3230,1, 1,3, 4700,45, 2,22,
    544,2, 9,15, 2,6, 30,3, 148,2, 1979,54, 4,49, 8,0, 14,0, 22,4, 1,14, 1360,6, 1,16,
    2,6, 1,1, 1,4, 5,61, 33,0, 160,13, 368,0, 61,3, 507,4, 992,6, 109,7, 2735,4, 789505,0,
    30,95, 128,239] ++
    runs 2 0 [3893,2]

/-- Whether a character does not end a word for the purpose of casing. -/
def isCaseIgnorable (c : Char) : Bool :=
  inRuns caseIgnorableRuns c.toNat

/-! ## Characters inside words -/

/-- The code points that do not separate words: letters, digits and marks, and the
signs that join letters. -/
def wordPartRuns : List Run :=
  runs 1 0 [39,0, 6,0, 1,10, 6,25, 4,0, 1,25, 47,0, 2,0, 7,0, 1,0, 2,0, 5,22, 1,30, 1,479,
    6,150, 1,1, 2,3, 1,0, 6,4, 1,0, 1,19, 1,82, 1,138, 1,172, 1,37, 2,3, 1,42, 1,0, 6,44,
    1,0, 1,1, 1,1, 1,0, 8,26, 4,5, 11,5, 10,10, 1,0, 3,73, 1,0, 2,101, 1,8, 1,9, 1,18,
    2,0, 15,59, 2,100, 14,53, 4,0, 2,0, 2,45, 18,27, 4,10, 5,23, 1,5, 1,1, 6,203, 2,9,
    1,18, 1,7, 2,1, 2,21, 1,6, 1,0, 3,3, 2,8, 2,1, 2,3, 8,0, 4,1, 1,4, 2,11, 10,0, 1,0,
    2,2, 1,5, 4,1, 2,21, 1,6, 1,1, 1,1, 1,1, 2,0, 1,4, 4,1, 2,2, 3,0, 7,3, 1,0, 7,15,
    11,2, 1,8, 1,2, 1,21, 1,6, 1,1, 1,4, 2,9, 1,2, 1,2, 2,0, 15,3, 2,9, 9,6, 1,2, 1,7,
    2,1, 2,21, 1,6, 1,1, 1,4, 2,8, 2,1, 2,2, 7,2, 4,1, 1,4, 2,9, 1,0, 16,1, 1,5, 3,2, 1,3,
    3,1, 1,0, 1,1, 3,1, 3,2, 3,11, 4,4, 3,2, 1,3, 2,0, 6,0, 14,9, 16,12, 1,2, 1,22, 1,15,
    2,8, 1,2, 1,3, 7,1, 1,2, 2,0, 2,3, 2,9, 16,3, 1,7, 1,2, 1,22, 1,9, 1,4, 2,8, 1,2, 1,3,
    7,1, 6,1, 1,3, 2,9, 1,2, 12,12, 1,2, 1,50, 1,2, 1,4, 5,3, 7,4, 2,9, 10,5, 1,2, 1,17,
    3,23, 1,8, 1,0, 2,6, 3,0, 4,5, 1,0, 1,7, 6,9, 2,1, 61,0, 2,6, 12,7, 1,9, 87,0, 2,8,
    11,6, 1,9, 38,0, 23,1, 6,9, 20,9, 1,35, 4,19, 1,17, 1,35, 9,0, 100,19, 1,9, 12,3, 4,2,
    1,2, 2,6, 3,3, 13,11, 1,14, 2,37, 1,0, 5,0, 2,42, 1,332, 1,3, 2,6, 1,0, 1,3, 2,40,
    1,3, 2,32, 1,3, 2,6, 1,0, 1,3, 2,14, 1,56, 1,3, 2,66, 2,2, 32,15, 16,85, 2,5, 3,619,
    2,16, 1,25, 5,74, 3,10, 7,21, 9,21, 11,19, 12,12, 1,2, 1,1, 64,31, 9,0, 2,9, 33,14,
    6,88, 7,42, 5,69, 10,30, 1,11, 4,11, 10,9, 128,9, 38,27, 57,9, 1,28, 2,10, 6,9, 22,30,
    49,76, 3,9, 17,8, 12,115, 12,55, 8,9, 3,48, 2,8, 7,42, 2,2, 16,2, 1,38, 5,533, 2,5,
    2,37, 2,5, 2,7, 7,30, 2,52, 1,6, 1,0, 3,2, 1,6, 3,3, 2,5, 4,12, 5,2, 1,6, 15,3, 8,1,
    10,0, 2,0, 2,5, 15,1, 19,0, 11,4, 1,9, 1,0, 13,0, 16,12, 51,32, 17,0, 4,0, 2,9, 1,0,
    3,4, 12,3, 1,10, 2,3, 5,4, 4,0, 17,40, 813,51, 1814,228, 6,8, 12,37, 1,0, 5,0, 2,55,
    7,0, 15,23, 9,6, 1,6, 1,6, 1,6, 1,6, 1,6, 1,6, 1,6, 1,31, 47,0, 469,0, 36,5, 11,1,
    92,1, 106,42, 1,93, 17,31, 28224,1164, 67,45, 2,268, 3,27, 20,50, 1,9, 1,114, 22,194,
    5,1, 1,0, 1,4, 24,53, 4,0, 19,51, 12,69, 10,9, 6,23, 3,0, 1,48, 2,35, 12,28, 3,64,
    14,10, 11,0, 10,9, 6,54, 9,13, 2,9, 33,2, 50,0, 1,2, 2,1, 5,1, 1,0, 30,15, 2,4, 10,5,
    2,5, 2,5, 9,6, 1,6, 1,57, 6,122, 1,1, 2,9, 6,11171, 12,22, 4,48, 8964,6, 12,4, 5,11,
    1,12, 1,4, 1,0, 1,1, 1,1, 1,107, 33,362, 18,63, 2,53, 40,11, 4,15, 3,0, 12,15, 3,1,
    24,2, 2,0, 2,0, 26,4, 1,134, 2,0, 7,0, 6,0, 1,10, 6,25, 4,0, 1,25, 67,32, 3,5, 2,5,
    2,5, 2,2, 28,2, 4,11, 1,25, 1,18, 1,1, 1,14, 2,13, 34,122, 69,52, 136,0, 130,28, 3,48,
    15,0, 31,31, 13,29, 5,42, 5,29, 2,35, 4,7, 1,4, 42,157, 2,9, 6,35, 4,35, 4,39, 8,51,
    12,10, 1,14, 1,6, 1,1, 1,10, 1,14, 1,6, 1,1, 67,310, 9,21, 10,7, 24,5, 1,41, 1,8,
    69,5, 2,0, 1,43, 1,1, 3,0, 2,22, 10,22, 9,30, 65,18, 1,1, 10,21, 10,25, 70,55, 6,1,
    64,3, 1,1, 5,7, 1,2, 1,28, 2,2, 4,0, 32,28, 3,28, 35,7, 1,29, 25,53, 10,21, 10,18,
    13,17, 110,72, 55,50, 13,50, 13,39, 8,9, 326,41, 1,1, 3,1, 75,31, 10,0, 8,32, 31,21,
    42,20, 27,22, 9,70, 31,15, 9,59, 2,0, 4,0, 10,0, 2,24, 7,9, 6,52, 1,9, 4,3, 8,35, 2,0,
    9,68, 4,3, 1,12, 1,0, 35,17, 1,36, 6,3, 62,6, 1,0, 1,3, 1,14, 1,9, 7,58, 5,9, 6,3,
    1,7, 2,1, 2,21, 1,6, 1,1, 1,4, 1,9, 2,1, 2,2, 2,0, 6,0, 5,6, 2,6, 3,4, 139,74, 5,9,
    4,3, 30,69, 1,0, 8,9, 166,53, 2,8, 23,5, 34,64, 3,0, 11,9, 38,56, 7,9, 83,14, 4,9,
    198,58, 101,73, 21,7, 2,0, 2,7, 1,1, 1,29, 1,1, 2,8, 12,9, 70,7, 2,45, 2,7, 1,1,
    27,62, 8,0, 8,73, 3,0, 18,72, 263,8, 1,44, 1,8, 15,9, 24,29, 2,21, 1,13, 73,6, 1,1,
    1,43, 3,0, 1,1, 1,8, 8,9, 6,5, 1,1, 1,36, 1,1, 1,5, 7,9, 310,22, 9,16, 1,40, 3,4,
    13,9, 86,0, 79,921, 102,110, 17,195, 2636,96, 15,1109, 4010,582, 8633,568, 7,30, 1,9,
    6,78, 1,9, 6,29, 2,4, 11,54, 9,3, 12,9, 9,20, 5,18, 688,63, 128,74, 4,56, 7,16, 64,1,
    1,1, 11,1, 19470,106, 5,12, 3,8, 7,9, 3,1, 1,3, 4700,45, 2,22, 542,4, 3,21, 2,6, 30,3,
    148,2, 443,84, 1,70, 1,1, 2,0, 2,1, 2,3, 1,11, 1,0, 1,6, 1,64, 1,3, 2,7, 1,6, 1,27,
    1,3, 1,4, 1,0, 3,6, 1,339, 2,24, 1,24, 1,30, 1,24, 1,30, 1,24, 1,30, 1,24, 1,30, 1,24,
    1,7, 2,49, 512,54, 4,49, 8,0, 14,0, 22,4, 1,14, 1104,30, 6,5, 213,6, 1,16, 2,6, 1,1,
    1,4, 5,61, 33,0, 112,44, 3,13, 2,9, 4,0, 321,30, 17,57, 470,41, 742,6, 1,3, 1,1, 1,14,
    1,196, 11,6, 41,75, 4,9, 1190,3, 1,26, 1,1, 1,0, 2,0, 1,9, 1,3, 1,0, 1,0, 6,0, 10,2,
    1,1, 1,0, 12,1, 1,0, 2,3, 1,6, 1,3, 1,3, 1,0, 1,9, 1,16, 5,2, 1,4, 1,16, 628,25, 6,25,
    6,25, 625,4, 2032,9, 787463,0, 30,95, 128,239] ++
    runs 2 0 [3893,2, 4127,2, 454,2, 118046,2, 11,4]

/-- Whether a character belongs to a word or joins its letters. -/
def isWordPart (c : Char) : Bool :=
  if c.toNat < 0x80 then c.isAlphanum || c == '_' || c == '\'' || c == '.' || c == ':'
  else inRuns wordPartRuns c.toNat

end Deriver.Text
