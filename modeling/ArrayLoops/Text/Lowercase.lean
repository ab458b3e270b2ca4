import ArrayLoops.Text.Printable

/-!
# Lower case

The lower-case mapping of whole texts. Every character maps alone but two: dotted capital I becomes
two characters, and a capital sigma that ends a word becomes the final form.
The tables are those of Unicode 17.0.
-/

namespace ArrayLoops.Text

/-- Capitals beyond ASCII whose lower-case letter is the next code point: every second one from the
first to the last of a run. -/
def alternating : List (Nat × Nat) := [
  (256, 302), (306, 310), (313, 327), (330, 374), (377, 381), (386, 388), (391, 391), (395, 395),
  (401, 401), (408, 408), (416, 420), (423, 423), (428, 428), (431, 431), (435, 437), (440, 440),
  (444, 444), (453, 453), (456, 456), (459, 475), (478, 494), (498, 500), (504, 542), (546, 562),
  (571, 571), (577, 577), (582, 590), (880, 882), (886, 886), (984, 1006), (1015, 1015),
  (1018, 1018), (1120, 1152), (1162, 1214), (1217, 1229), (1232, 1326), (7305, 7305), (7680, 7828),
  (7840, 7934), (8579, 8579), (11360, 11360), (11367, 11371), (11378, 11378), (11381, 11381),
  (11392, 11490), (11499, 11501), (11506, 11506), (42560, 42604), (42624, 42650), (42786, 42798),
  (42802, 42862), (42873, 42875), (42878, 42886), (42891, 42891), (42896, 42898), (42902, 42920),
  (42932, 42946), (42951, 42953), (42956, 42970), (42997, 42997)]

/-- Runs of capitals, from the first to the last, and the lower-case letter of the first. -/
def shifted : List (Nat × Nat × Nat) := [
  (192, 214, 224), (216, 222, 248), (393, 394, 598), (433, 434, 650), (904, 906, 941),
  (910, 911, 973), (913, 929, 945), (931, 939, 963), (1021, 1023, 891), (1024, 1039, 1104),
  (1040, 1071, 1072), (1329, 1366, 1377), (4256, 4293, 11520), (5024, 5103, 43888),
  (5104, 5109, 5112), (7312, 7354, 4304), (7357, 7359, 4349), (7944, 7951, 7936),
  (7960, 7965, 7952), (7976, 7983, 7968), (7992, 7999, 7984), (8008, 8013, 8000),
  (8040, 8047, 8032), (8072, 8079, 8064), (8088, 8095, 8080), (8104, 8111, 8096),
  (8120, 8121, 8112), (8122, 8123, 8048), (8136, 8139, 8050), (8152, 8153, 8144),
  (8154, 8155, 8054), (8168, 8169, 8160), (8170, 8171, 8058), (8184, 8185, 8056),
  (8186, 8187, 8060), (8544, 8559, 8560), (9398, 9423, 9424), (11264, 11311, 11312),
  (11390, 11391, 575), (65313, 65338, 65345), (66560, 66599, 66600), (66736, 66771, 66776),
  (66928, 66938, 66967), (66940, 66954, 66979), (66956, 66962, 66995), (66964, 66965, 67003),
  (68736, 68786, 68800), (68944, 68965, 68976), (71840, 71871, 71872), (93760, 93791, 93792),
  (93856, 93880, 93883), (125184, 125217, 125218)]

/-- Single capitals and their lower-case letters. -/
def moved : List (Nat × Nat) := [
  (376, 255), (385, 595), (390, 596), (398, 477), (399, 601), (400, 603), (403, 608), (404, 611),
  (406, 617), (407, 616), (412, 623), (413, 626), (415, 629), (422, 640), (425, 643), (430, 648),
  (439, 658), (452, 454), (455, 457), (458, 460), (497, 499), (502, 405), (503, 447), (544, 414),
  (570, 11365), (573, 410), (574, 11366), (579, 384), (580, 649), (581, 652), (895, 1011),
  (902, 940), (908, 972), (975, 983), (1012, 952), (1017, 1010), (1216, 1231), (4295, 11559),
  (4301, 11565), (7838, 223), (8025, 8017), (8027, 8019), (8029, 8021), (8031, 8023), (8124, 8115),
  (8140, 8131), (8172, 8165), (8188, 8179), (8486, 969), (8490, 107), (8491, 229), (8498, 8526),
  (11362, 619), (11363, 7549), (11364, 637), (11373, 593), (11374, 625), (11375, 592),
  (11376, 594), (42877, 7545), (42893, 613), (42922, 614), (42923, 604), (42924, 609),
  (42925, 620), (42926, 618), (42928, 670), (42929, 647), (42930, 669), (42931, 43859),
  (42948, 42900), (42949, 642), (42950, 7566), (42955, 612), (42972, 411)]

def casedRanges : Ranges := .ofRuns 0 [
  170,1,10,1,4,1,5,23,1,31,1,195,1,4,4,208,2,35,7,2,30,5,96,1,42,4,2,2,2,4,1,1,6,1,1,3,1,1,1,20,1,
  83,1,139,8,166,1,38,9,41,2839,38,1,1,5,1,2,43,1,4,672,86,2,6,2178,11,5,43,2,3,64,192,64,278,2,6,2,
  38,2,6,2,8,1,1,1,1,1,1,1,31,2,53,1,7,1,1,3,3,1,7,3,4,2,6,4,13,5,3,1,7,116,1,13,1,16,13,101,1,4,1,
  2,10,1,1,3,5,6,1,1,1,1,1,1,4,1,6,4,1,2,4,5,5,4,1,17,32,3,2,817,52,1814,229,6,4,3,2,12,38,1,1,5,1,
  30994,46,18,30,132,102,3,4,1,77,20,6,1,3,821,43,1,14,6,80,20288,7,12,5,1033,26,6,26,1189,80,96,36,
  4,36,116,11,1,15,1,7,1,2,1,11,1,15,1,7,1,2,451,1,2,3,1,42,1,9,1221,51,13,51,93,22,10,22,2842,64,
  21856,64,32,25,2,25,25900,85,1,71,1,2,2,1,2,2,2,4,1,12,1,1,1,7,1,65,1,4,2,8,1,7,1,28,1,4,1,5,1,1,
  3,7,1,340,2,25,1,25,1,31,1,25,1,31,1,25,1,31,1,25,1,31,1,25,1,8,1844,10,1,20,6,6,261,62,2194,68,
  2028,26,6,26,6,26]

/-- Marks with a width of their own among those that extend the character before them. -/
def spacingRanges : Ranges := .ofRuns 0 [
  2494,1,24,1,358,1,24,1,102,1,24,1,232,1,1,1,4,2,1,2,9,2,103,1,24,1,119,1,15,1,2357,1,30,1,1024,1,
  5,1,1,1,5,2,101,1,71,2,5178,2,31011,1,108,1,26623,1,116,1,264,1,14,1,9,1,96,1,9,1,2,1,1,3,5,1,224,
  1,12,1,241,1,262,1,633,1,12,1,1539,1,20654,2,24947,2,6,6]

/-- Modifiers, format characters and the like. -/
def modifierRanges : Ranges := .ofRuns 0 [
  168,1,4,1,1,1,4,1,2,2,503,80,116,2,4,1,9,2,1,1,465,1,5,1,148,1,11,6,22,1,35,1,156,1,7,2,40,1,228,
  2,4,1,31,1,9,1,3,1,95,1,7,2,55,1,24,1,142,1,1236,1,127,1,565,1,1754,1,54,1,52,1,611,1,464,6,174,
  63,13,1,34,37,509,1,1,3,11,3,13,3,13,3,13,2,12,1,1,3,8,2,10,1,2,1,2,5,49,5,1,10,1,1,13,1,16,13,
  3039,2,241,1,191,1,469,1,43,5,5,1,95,4,93,3,28438,1,1250,6,270,1,114,1,28,2,98,34,78,1,23,3,102,4,
  3,2,469,1,22,1,137,1,108,1,21,2,102,5,9,3,20550,17,592,1,62,1,2,1,169,1,7,1,6,1,11,1,35,1,1,1,47,
  1,114,1,21,3,1924,6,1,42,1,9,1427,1,32,1,341,1,503,1,15,1,3339,1,5718,16,14080,4,508,3,40,2,550,
  13,64,2,1,1,14,2,16380,4,1,7,1,2,3233,4,5327,8,3765,62,201,7,941,1,531,1,587,1,2735,5,789505,1]

def isCased (c : Char) : Bool :=
  if c.toNat < 128 then c.isAlpha else casedRanges.has c.toNat

def isCaseIgnorable (c : Char) : Bool :=
  let n := c.toNat
  if n < 128 then "'.:^`".toList.contains c
  else extenderRanges.has n && !spacingRanges.has n || modifierRanges.has n

def lowerChar (c : Char) : List Char :=
  let n := c.toNat
  if n < 128 then [c.toLower]
  else if n == 0x130 then ['i', Char.ofNat 0x307]
  else if alternating.any fun run => run.1 ≤ n && n ≤ run.2 && (n - run.1) % 2 == 0 then
    [Char.ofNat (n + 1)]
  else match shifted.find? fun run => run.1 ≤ n && n ≤ run.2.1 with
    | some run => [Char.ofNat (run.2.2 + (n - run.1))]
    | none => [((moved.find? (·.1 == n)).map fun entry => Char.ofNat entry.2).getD c]

/-- Whether the nearest character that is not case-ignorable is cased. -/
def casedNext (cs : List Char) : Bool :=
  match cs.dropWhile isCaseIgnorable with
  | c :: _ => isCased c
  | [] => false

/-- `before` holds the characters already passed, nearest first. -/
def lowerChars (before : List Char) : List Char → List Char
  | [] => []
  | c :: rest =>
    let here :=
      if c.toNat == 0x3A3 then
        [Char.ofNat (if casedNext before && !casedNext rest then 0x3C2 else 0x3C3)]
      else lowerChar c
    here ++ lowerChars (c :: before) rest

def lowercase (text : String) : String := String.ofList (lowerChars [] text.toList)

end ArrayLoops.Text
