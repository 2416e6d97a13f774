/-!
# The case of a letter

A character is uppercase, lowercase or neither, as the properties `Uppercase` and `Lowercase` of
Unicode 17.0 say. Both properties come from one table of disjoint runs of code points, so no
character has two cases; a titlecase letter has none. Only the table belongs to that version of
Unicode: another version is another list of runs.

- `LetterCase` : the two cases;
- `CaseRun` : consecutive code points whose cases follow one pattern;
- `letterCase?` : the case of a character, if it has one.
-/

namespace ChomskyNormal

inductive LetterCase
  | upper
  | lower
  deriving DecidableEq, Repr

/-! ## Runs of cased letters -/

inductive CasePattern
  | upper
  | lower
  /-- The first letter is uppercase, and the case changes with every letter. -/
  | alternating
  deriving DecidableEq, Repr

/-- The letter that stands `offset` places after the first of its run. -/
def CasePattern.caseAt : CasePattern → Nat → LetterCase
  | .upper, _ => .upper
  | .lower, _ => .lower
  | .alternating, offset => if offset % 2 = 0 then .upper else .lower

/-- The code points from `first` to `last`, both included. -/
structure CaseRun where
  first : Nat
  last : Nat
  pattern : CasePattern
  deriving DecidableEq, Repr

def CaseRun.case? (run : CaseRun) (codePoint : Nat) : Option LetterCase :=
  if run.first ≤ codePoint ∧ codePoint ≤ run.last then
    some (run.pattern.caseAt (codePoint - run.first))
  else
    none

/-- The cased letters of Unicode 17.0, in ascending order of code points. -/
def caseRuns : List CaseRun := [
    ⟨0x41, 0x5A, .upper⟩, ⟨0x61, 0x7A, .lower⟩, ⟨0xAA, 0xAA, .lower⟩, ⟨0xB5, 0xB5, .lower⟩,
    ⟨0xBA, 0xBA, .lower⟩, ⟨0xC0, 0xD6, .upper⟩, ⟨0xD8, 0xDE, .upper⟩, ⟨0xDF, 0xF6, .lower⟩,
    ⟨0xF8, 0xFF, .lower⟩, ⟨0x100, 0x137, .alternating⟩, ⟨0x138, 0x138, .lower⟩,
    ⟨0x139, 0x148, .alternating⟩, ⟨0x149, 0x149, .lower⟩, ⟨0x14A, 0x178, .alternating⟩,
    ⟨0x179, 0x17E, .alternating⟩, ⟨0x17F, 0x180, .lower⟩, ⟨0x181, 0x182, .upper⟩,
    ⟨0x183, 0x183, .lower⟩, ⟨0x184, 0x186, .alternating⟩, ⟨0x187, 0x189, .alternating⟩,
    ⟨0x18A, 0x18B, .upper⟩, ⟨0x18C, 0x18D, .lower⟩, ⟨0x18E, 0x191, .upper⟩, ⟨0x192, 0x192, .lower⟩,
    ⟨0x193, 0x194, .upper⟩, ⟨0x195, 0x195, .lower⟩, ⟨0x196, 0x198, .upper⟩, ⟨0x199, 0x19B, .lower⟩,
    ⟨0x19C, 0x19D, .upper⟩, ⟨0x19E, 0x19E, .lower⟩, ⟨0x19F, 0x1A0, .upper⟩, ⟨0x1A1, 0x1A1, .lower⟩,
    ⟨0x1A2, 0x1A6, .alternating⟩, ⟨0x1A7, 0x1AA, .alternating⟩, ⟨0x1AB, 0x1AB, .lower⟩,
    ⟨0x1AC, 0x1AE, .alternating⟩, ⟨0x1AF, 0x1B1, .alternating⟩, ⟨0x1B2, 0x1B3, .upper⟩,
    ⟨0x1B4, 0x1B4, .lower⟩, ⟨0x1B5, 0x1B7, .alternating⟩, ⟨0x1B8, 0x1B9, .alternating⟩,
    ⟨0x1BA, 0x1BA, .lower⟩, ⟨0x1BC, 0x1BD, .alternating⟩, ⟨0x1BE, 0x1BF, .lower⟩,
    ⟨0x1C4, 0x1C4, .upper⟩, ⟨0x1C6, 0x1C6, .lower⟩, ⟨0x1C7, 0x1C7, .upper⟩, ⟨0x1C9, 0x1C9, .lower⟩,
    ⟨0x1CA, 0x1CA, .upper⟩, ⟨0x1CC, 0x1CC, .lower⟩, ⟨0x1CD, 0x1DC, .alternating⟩,
    ⟨0x1DD, 0x1DD, .lower⟩, ⟨0x1DE, 0x1EF, .alternating⟩, ⟨0x1F0, 0x1F0, .lower⟩,
    ⟨0x1F1, 0x1F1, .upper⟩, ⟨0x1F3, 0x1F3, .lower⟩, ⟨0x1F4, 0x1F6, .alternating⟩,
    ⟨0x1F7, 0x1F8, .upper⟩, ⟨0x1F9, 0x1F9, .lower⟩, ⟨0x1FA, 0x233, .alternating⟩,
    ⟨0x234, 0x239, .lower⟩, ⟨0x23A, 0x23B, .upper⟩, ⟨0x23C, 0x23C, .lower⟩, ⟨0x23D, 0x23E, .upper⟩,
    ⟨0x23F, 0x240, .lower⟩, ⟨0x241, 0x243, .alternating⟩, ⟨0x244, 0x246, .upper⟩,
    ⟨0x247, 0x247, .lower⟩, ⟨0x248, 0x24F, .alternating⟩, ⟨0x250, 0x293, .lower⟩,
    ⟨0x296, 0x2B8, .lower⟩, ⟨0x2C0, 0x2C1, .lower⟩, ⟨0x2E0, 0x2E4, .lower⟩, ⟨0x345, 0x345, .lower⟩,
    ⟨0x370, 0x373, .alternating⟩, ⟨0x376, 0x377, .alternating⟩, ⟨0x37A, 0x37D, .lower⟩,
    ⟨0x37F, 0x37F, .upper⟩, ⟨0x386, 0x386, .upper⟩, ⟨0x388, 0x38A, .upper⟩, ⟨0x38C, 0x38C, .upper⟩,
    ⟨0x38E, 0x38F, .upper⟩, ⟨0x390, 0x390, .lower⟩, ⟨0x391, 0x3A1, .upper⟩, ⟨0x3A3, 0x3AB, .upper⟩,
    ⟨0x3AC, 0x3CE, .lower⟩, ⟨0x3CF, 0x3D0, .alternating⟩, ⟨0x3D1, 0x3D1, .lower⟩,
    ⟨0x3D2, 0x3D4, .upper⟩, ⟨0x3D5, 0x3D7, .lower⟩, ⟨0x3D8, 0x3EF, .alternating⟩,
    ⟨0x3F0, 0x3F3, .lower⟩, ⟨0x3F4, 0x3F5, .alternating⟩, ⟨0x3F7, 0x3F9, .alternating⟩,
    ⟨0x3FA, 0x3FB, .alternating⟩, ⟨0x3FC, 0x3FC, .lower⟩, ⟨0x3FD, 0x42F, .upper⟩,
    ⟨0x430, 0x45F, .lower⟩, ⟨0x460, 0x481, .alternating⟩, ⟨0x48A, 0x4C0, .alternating⟩,
    ⟨0x4C1, 0x4CE, .alternating⟩, ⟨0x4CF, 0x4CF, .lower⟩, ⟨0x4D0, 0x52F, .alternating⟩,
    ⟨0x531, 0x556, .upper⟩, ⟨0x560, 0x588, .lower⟩, ⟨0x10A0, 0x10C5, .upper⟩,
    ⟨0x10C7, 0x10C7, .upper⟩, ⟨0x10CD, 0x10CD, .upper⟩, ⟨0x10D0, 0x10FA, .lower⟩,
    ⟨0x10FC, 0x10FF, .lower⟩, ⟨0x13A0, 0x13F5, .upper⟩, ⟨0x13F8, 0x13FD, .lower⟩,
    ⟨0x1C80, 0x1C88, .lower⟩, ⟨0x1C89, 0x1C8A, .alternating⟩, ⟨0x1C90, 0x1CBA, .upper⟩,
    ⟨0x1CBD, 0x1CBF, .upper⟩, ⟨0x1D00, 0x1DBF, .lower⟩, ⟨0x1E00, 0x1E95, .alternating⟩,
    ⟨0x1E96, 0x1E9D, .lower⟩, ⟨0x1E9E, 0x1EFF, .alternating⟩, ⟨0x1F00, 0x1F07, .lower⟩,
    ⟨0x1F08, 0x1F0F, .upper⟩, ⟨0x1F10, 0x1F15, .lower⟩, ⟨0x1F18, 0x1F1D, .upper⟩,
    ⟨0x1F20, 0x1F27, .lower⟩, ⟨0x1F28, 0x1F2F, .upper⟩, ⟨0x1F30, 0x1F37, .lower⟩,
    ⟨0x1F38, 0x1F3F, .upper⟩, ⟨0x1F40, 0x1F45, .lower⟩, ⟨0x1F48, 0x1F4D, .upper⟩,
    ⟨0x1F50, 0x1F57, .lower⟩, ⟨0x1F59, 0x1F59, .upper⟩, ⟨0x1F5B, 0x1F5B, .upper⟩,
    ⟨0x1F5D, 0x1F5D, .upper⟩, ⟨0x1F5F, 0x1F60, .alternating⟩, ⟨0x1F61, 0x1F67, .lower⟩,
    ⟨0x1F68, 0x1F6F, .upper⟩, ⟨0x1F70, 0x1F7D, .lower⟩, ⟨0x1F80, 0x1F87, .lower⟩,
    ⟨0x1F90, 0x1F97, .lower⟩, ⟨0x1FA0, 0x1FA7, .lower⟩, ⟨0x1FB0, 0x1FB4, .lower⟩,
    ⟨0x1FB6, 0x1FB7, .lower⟩, ⟨0x1FB8, 0x1FBB, .upper⟩, ⟨0x1FBE, 0x1FBE, .lower⟩,
    ⟨0x1FC2, 0x1FC4, .lower⟩, ⟨0x1FC6, 0x1FC7, .lower⟩, ⟨0x1FC8, 0x1FCB, .upper⟩,
    ⟨0x1FD0, 0x1FD3, .lower⟩, ⟨0x1FD6, 0x1FD7, .lower⟩, ⟨0x1FD8, 0x1FDB, .upper⟩,
    ⟨0x1FE0, 0x1FE7, .lower⟩, ⟨0x1FE8, 0x1FEC, .upper⟩, ⟨0x1FF2, 0x1FF4, .lower⟩,
    ⟨0x1FF6, 0x1FF7, .lower⟩, ⟨0x1FF8, 0x1FFB, .upper⟩, ⟨0x2071, 0x2071, .lower⟩,
    ⟨0x207F, 0x207F, .lower⟩, ⟨0x2090, 0x209C, .lower⟩, ⟨0x2102, 0x2102, .upper⟩,
    ⟨0x2107, 0x2107, .upper⟩, ⟨0x210A, 0x210A, .lower⟩, ⟨0x210B, 0x210D, .upper⟩,
    ⟨0x210E, 0x210F, .lower⟩, ⟨0x2110, 0x2112, .upper⟩, ⟨0x2113, 0x2113, .lower⟩,
    ⟨0x2115, 0x2115, .upper⟩, ⟨0x2119, 0x211D, .upper⟩, ⟨0x2124, 0x2124, .upper⟩,
    ⟨0x2126, 0x2126, .upper⟩, ⟨0x2128, 0x2128, .upper⟩, ⟨0x212A, 0x212D, .upper⟩,
    ⟨0x212F, 0x212F, .lower⟩, ⟨0x2130, 0x2133, .upper⟩, ⟨0x2134, 0x2134, .lower⟩,
    ⟨0x2139, 0x2139, .lower⟩, ⟨0x213C, 0x213D, .lower⟩, ⟨0x213E, 0x213F, .upper⟩,
    ⟨0x2145, 0x2146, .alternating⟩, ⟨0x2147, 0x2149, .lower⟩, ⟨0x214E, 0x214E, .lower⟩,
    ⟨0x2160, 0x216F, .upper⟩, ⟨0x2170, 0x217F, .lower⟩, ⟨0x2183, 0x2184, .alternating⟩,
    ⟨0x24B6, 0x24CF, .upper⟩, ⟨0x24D0, 0x24E9, .lower⟩, ⟨0x2C00, 0x2C2F, .upper⟩,
    ⟨0x2C30, 0x2C5F, .lower⟩, ⟨0x2C60, 0x2C62, .alternating⟩, ⟨0x2C63, 0x2C64, .upper⟩,
    ⟨0x2C65, 0x2C66, .lower⟩, ⟨0x2C67, 0x2C6D, .alternating⟩, ⟨0x2C6E, 0x2C70, .upper⟩,
    ⟨0x2C71, 0x2C71, .lower⟩, ⟨0x2C72, 0x2C73, .alternating⟩, ⟨0x2C74, 0x2C74, .lower⟩,
    ⟨0x2C75, 0x2C76, .alternating⟩, ⟨0x2C77, 0x2C7D, .lower⟩, ⟨0x2C7E, 0x2C80, .upper⟩,
    ⟨0x2C81, 0x2C81, .lower⟩, ⟨0x2C82, 0x2CE3, .alternating⟩, ⟨0x2CE4, 0x2CE4, .lower⟩,
    ⟨0x2CEB, 0x2CEE, .alternating⟩, ⟨0x2CF2, 0x2CF3, .alternating⟩, ⟨0x2D00, 0x2D25, .lower⟩,
    ⟨0x2D27, 0x2D27, .lower⟩, ⟨0x2D2D, 0x2D2D, .lower⟩, ⟨0xA640, 0xA66D, .alternating⟩,
    ⟨0xA680, 0xA69B, .alternating⟩, ⟨0xA69C, 0xA69D, .lower⟩, ⟨0xA722, 0xA72F, .alternating⟩,
    ⟨0xA730, 0xA731, .lower⟩, ⟨0xA732, 0xA76F, .alternating⟩, ⟨0xA770, 0xA778, .lower⟩,
    ⟨0xA779, 0xA77D, .alternating⟩, ⟨0xA77E, 0xA787, .alternating⟩, ⟨0xA78B, 0xA78E, .alternating⟩,
    ⟨0xA790, 0xA793, .alternating⟩, ⟨0xA794, 0xA795, .lower⟩, ⟨0xA796, 0xA7AA, .alternating⟩,
    ⟨0xA7AB, 0xA7AE, .upper⟩, ⟨0xA7AF, 0xA7AF, .lower⟩, ⟨0xA7B0, 0xA7B4, .upper⟩,
    ⟨0xA7B5, 0xA7B5, .lower⟩, ⟨0xA7B6, 0xA7C4, .alternating⟩, ⟨0xA7C5, 0xA7C7, .upper⟩,
    ⟨0xA7C8, 0xA7C8, .lower⟩, ⟨0xA7C9, 0xA7CB, .alternating⟩, ⟨0xA7CC, 0xA7DC, .alternating⟩,
    ⟨0xA7F1, 0xA7F4, .lower⟩, ⟨0xA7F5, 0xA7F6, .alternating⟩, ⟨0xA7F8, 0xA7FA, .lower⟩,
    ⟨0xAB30, 0xAB5A, .lower⟩, ⟨0xAB5C, 0xAB69, .lower⟩, ⟨0xAB70, 0xABBF, .lower⟩,
    ⟨0xFB00, 0xFB06, .lower⟩, ⟨0xFB13, 0xFB17, .lower⟩, ⟨0xFF21, 0xFF3A, .upper⟩,
    ⟨0xFF41, 0xFF5A, .lower⟩, ⟨0x10400, 0x10427, .upper⟩, ⟨0x10428, 0x1044F, .lower⟩,
    ⟨0x104B0, 0x104D3, .upper⟩, ⟨0x104D8, 0x104FB, .lower⟩, ⟨0x10570, 0x1057A, .upper⟩,
    ⟨0x1057C, 0x1058A, .upper⟩, ⟨0x1058C, 0x10592, .upper⟩, ⟨0x10594, 0x10595, .upper⟩,
    ⟨0x10597, 0x105A1, .lower⟩, ⟨0x105A3, 0x105B1, .lower⟩, ⟨0x105B3, 0x105B9, .lower⟩,
    ⟨0x105BB, 0x105BC, .lower⟩, ⟨0x10780, 0x10780, .lower⟩, ⟨0x10783, 0x10785, .lower⟩,
    ⟨0x10787, 0x107B0, .lower⟩, ⟨0x107B2, 0x107BA, .lower⟩, ⟨0x10C80, 0x10CB2, .upper⟩,
    ⟨0x10CC0, 0x10CF2, .lower⟩, ⟨0x10D50, 0x10D65, .upper⟩, ⟨0x10D70, 0x10D85, .lower⟩,
    ⟨0x118A0, 0x118BF, .upper⟩, ⟨0x118C0, 0x118DF, .lower⟩, ⟨0x16E40, 0x16E5F, .upper⟩,
    ⟨0x16E60, 0x16E7F, .lower⟩, ⟨0x16EA0, 0x16EB8, .upper⟩, ⟨0x16EBB, 0x16ED3, .lower⟩,
    ⟨0x1D400, 0x1D419, .upper⟩, ⟨0x1D41A, 0x1D433, .lower⟩, ⟨0x1D434, 0x1D44D, .upper⟩,
    ⟨0x1D44E, 0x1D454, .lower⟩, ⟨0x1D456, 0x1D467, .lower⟩, ⟨0x1D468, 0x1D481, .upper⟩,
    ⟨0x1D482, 0x1D49B, .lower⟩, ⟨0x1D49C, 0x1D49C, .upper⟩, ⟨0x1D49E, 0x1D49F, .upper⟩,
    ⟨0x1D4A2, 0x1D4A2, .upper⟩, ⟨0x1D4A5, 0x1D4A6, .upper⟩, ⟨0x1D4A9, 0x1D4AC, .upper⟩,
    ⟨0x1D4AE, 0x1D4B5, .upper⟩, ⟨0x1D4B6, 0x1D4B9, .lower⟩, ⟨0x1D4BB, 0x1D4BB, .lower⟩,
    ⟨0x1D4BD, 0x1D4C3, .lower⟩, ⟨0x1D4C5, 0x1D4CF, .lower⟩, ⟨0x1D4D0, 0x1D4E9, .upper⟩,
    ⟨0x1D4EA, 0x1D503, .lower⟩, ⟨0x1D504, 0x1D505, .upper⟩, ⟨0x1D507, 0x1D50A, .upper⟩,
    ⟨0x1D50D, 0x1D514, .upper⟩, ⟨0x1D516, 0x1D51C, .upper⟩, ⟨0x1D51E, 0x1D537, .lower⟩,
    ⟨0x1D538, 0x1D539, .upper⟩, ⟨0x1D53B, 0x1D53E, .upper⟩, ⟨0x1D540, 0x1D544, .upper⟩,
    ⟨0x1D546, 0x1D546, .upper⟩, ⟨0x1D54A, 0x1D550, .upper⟩, ⟨0x1D552, 0x1D56B, .lower⟩,
    ⟨0x1D56C, 0x1D585, .upper⟩, ⟨0x1D586, 0x1D59F, .lower⟩, ⟨0x1D5A0, 0x1D5B9, .upper⟩,
    ⟨0x1D5BA, 0x1D5D3, .lower⟩, ⟨0x1D5D4, 0x1D5ED, .upper⟩, ⟨0x1D5EE, 0x1D607, .lower⟩,
    ⟨0x1D608, 0x1D621, .upper⟩, ⟨0x1D622, 0x1D63B, .lower⟩, ⟨0x1D63C, 0x1D655, .upper⟩,
    ⟨0x1D656, 0x1D66F, .lower⟩, ⟨0x1D670, 0x1D689, .upper⟩, ⟨0x1D68A, 0x1D6A5, .lower⟩,
    ⟨0x1D6A8, 0x1D6C0, .upper⟩, ⟨0x1D6C2, 0x1D6DA, .lower⟩, ⟨0x1D6DC, 0x1D6E1, .lower⟩,
    ⟨0x1D6E2, 0x1D6FA, .upper⟩, ⟨0x1D6FC, 0x1D714, .lower⟩, ⟨0x1D716, 0x1D71B, .lower⟩,
    ⟨0x1D71C, 0x1D734, .upper⟩, ⟨0x1D736, 0x1D74E, .lower⟩, ⟨0x1D750, 0x1D755, .lower⟩,
    ⟨0x1D756, 0x1D76E, .upper⟩, ⟨0x1D770, 0x1D788, .lower⟩, ⟨0x1D78A, 0x1D78F, .lower⟩,
    ⟨0x1D790, 0x1D7A8, .upper⟩, ⟨0x1D7AA, 0x1D7C2, .lower⟩, ⟨0x1D7C4, 0x1D7C9, .lower⟩,
    ⟨0x1D7CA, 0x1D7CB, .alternating⟩, ⟨0x1DF00, 0x1DF09, .lower⟩, ⟨0x1DF0B, 0x1DF1E, .lower⟩,
    ⟨0x1DF25, 0x1DF2A, .lower⟩, ⟨0x1E030, 0x1E06D, .lower⟩, ⟨0x1E900, 0x1E921, .upper⟩,
    ⟨0x1E922, 0x1E943, .lower⟩, ⟨0x1F130, 0x1F149, .upper⟩, ⟨0x1F150, 0x1F169, .upper⟩,
    ⟨0x1F170, 0x1F189, .upper⟩]

/-! ## Case of a character -/

def letterCase? (c : Char) : Option LetterCase :=
  caseRuns.findSome? (·.case? c.toNat)

def isUppercase (c : Char) : Bool :=
  letterCase? c = some .upper

def isLowercase (c : Char) : Bool :=
  letterCase? c = some .lower

theorem exists_letterCase_iff {c : Char} :
    (∃ letterCase, letterCase? c = some letterCase) ↔
      isUppercase c = true ∨ isLowercase c = true := by
  constructor
  · rintro ⟨letterCase, hcase⟩
    cases letterCase with
    | upper => exact Or.inl (decide_eq_true hcase)
    | lower => exact Or.inr (decide_eq_true hcase)
  · rintro (hupper | hlower)
    · exact ⟨.upper, of_decide_eq_true hupper⟩
    · exact ⟨.lower, of_decide_eq_true hlower⟩

theorem not_isLowercase_of_isUppercase {c : Char} (h : isUppercase c = true) :
    isLowercase c = false := by
  simp_all [isUppercase, isLowercase]

theorem not_isUppercase_and_isLowercase (c : Char) :
    ¬ (isUppercase c = true ∧ isLowercase c = true) := by
  rintro ⟨hupper, hlower⟩
  rw [not_isLowercase_of_isUppercase hupper] at hlower
  cases hlower

end ChomskyNormal
