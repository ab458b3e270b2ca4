import ArrayLoops.Text.Printable

/-!
# Word characters

Letters, marks, decimal digits, connecting punctuation and the two joiners: the characters of a
word in directive lines and around the placeholder of a template. They are those of Unicode 16.0.
-/

namespace ArrayLoops.Text

/-- Letters and marks that are newer, and tags. -/
def newerRanges : Ranges := .ofRuns 0 [
  2191,1,972,1,127,1,3570,15,2,12,36066,2,2,1,1,1,28,1,24910,26,1387,3,50,2,3172,8,584,44,20676,25,
  2,25,286,5,6145,8,1289,22,97,115,22733,31,1,22,8,2,53306,6,5986,12,21762,4298,707494,96]

/-- What belongs to words beside letters and marks that extend the character before them. -/
def connectorRanges : Ranges := .ofRuns 0 [
  1632,10,134,10,198,10,412,10,118,10,118,10,118,10,118,10,118,10,118,10,118,10,118,10,118,10,96,10,
  118,10,70,10,20,2,256,10,70,10,1862,10,38,10,300,10,128,10,166,10,6,10,182,10,86,10,134,10,6,10,
  135,1,21,1,789,1,49,2,19,1,34251,10,678,10,38,10,198,10,22,10,86,10,402,1,3,10,21049,2,24,3,192,
  10,37,1,1376,10,2182,10,6,10,796,10,128,10,60,10,144,10,278,10,342,10,118,10,374,10,102,10,6,20,
  76,10,422,10,102,10,662,10,86,10,246,10,70,10,422,10,16854,10,2342,10,86,10,134,10,534,10,24438,
  10,2772,50,2368,10,422,10,502,10,247,10,853,10,4758,10]

def isWordChar (c : Char) : Bool :=
  let n := c.toNat
  if n < 128 then c.isAlphanum || c == '_'
  else (alphabeticRanges.has n || extenderRanges.has n) && !newerRanges.has n || connectorRanges.has n

end ArrayLoops.Text
