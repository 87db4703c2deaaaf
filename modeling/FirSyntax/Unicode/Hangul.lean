/-!
# Hangul syllables

A precomposed syllable is numbered by its leading consonant, its vowel and an optional trailing
consonant, so that decomposition and composition are arithmetic on code points. There are 19
leading consonants, 21 vowels and 28 endings, the first of which is no consonant at all.
-/
namespace FirSyntax.Unicode.Hangul

def syllableBase : Nat := 0xAC00
def leadBase : Nat := 0x1100
def vowelBase : Nat := 0x1161
/-- One before the first trailing consonant. -/
def tailBase : Nat := 0x11A7
def leadCount : Nat := 19
def vowelCount : Nat := 21
def tailCount : Nat := 28
def syllableCount : Nat := leadCount * vowelCount * tailCount

def isSyllable (c : Char) : Bool :=
  syllableBase ≤ c.toNat && c.toNat < syllableBase + syllableCount

def isLead (c : Char) : Bool := leadBase ≤ c.toNat && c.toNat < leadBase + leadCount

def isVowel (c : Char) : Bool := vowelBase ≤ c.toNat && c.toNat < vowelBase + vowelCount

/-- The trailing consonants. -/
def isTail (c : Char) : Bool := tailBase < c.toNat && c.toNat < tailBase + tailCount

/-- The two or three jamo of a syllable. -/
def decompose? (c : Char) : Option (List Char) :=
  if isSyllable c then
    let index := c.toNat - syllableBase
    let lead := Char.ofNat (leadBase + index / (vowelCount * tailCount))
    let vowel := Char.ofNat (vowelBase + index % (vowelCount * tailCount) / tailCount)
    if index % tailCount = 0 then some [lead, vowel]
    else some [lead, vowel, Char.ofNat (tailBase + index % tailCount)]
  else none

/-- A lead with a vowel, or a syllable without an ending with a trailing consonant. -/
def compose? (a b : Char) : Option Char :=
  if isLead a && isVowel b then
    some (Char.ofNat (syllableBase +
      ((a.toNat - leadBase) * vowelCount + (b.toNat - vowelBase)) * tailCount))
  else if isSyllable a && (a.toNat - syllableBase) % tailCount == 0 && isTail b then
    some (Char.ofNat (a.toNat + (b.toNat - tailBase)))
  else none

end FirSyntax.Unicode.Hangul
