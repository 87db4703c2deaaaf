import FirSyntax.Unicode.CharData
import FirSyntax.Unicode.Hangul
import FirSyntax.Unicode.Lookup

/-!
# Unicode character data

Tables of identifier properties, combining classes, full compatibility decompositions and primary
composites, for a selection of scripts and symbols. A code point without an entry is no part of
an identifier, has class 0 and stays as it is. Hangul syllables are left to arithmetic.
-/
namespace FirSyntax.Unicode

/-- Ranges of XID_Start beyond ASCII, Hangul syllables aside. -/
def identifierStarts : Array (Nat × Nat) := #[
  (0xAA, 0xAA), (0xB5, 0xB5), (0xBA, 0xBA), (0xC0, 0xC2), (0xC4, 0xC5), (0xC7, 0xCF), (0xD2, 0xD4),
  (0xD6, 0xD6), (0xD9, 0xDD), (0xE0, 0xE2), (0xE4, 0xE5), (0xE7, 0xEF), (0xF2, 0xF4), (0xF6, 0xF6),
  (0xF9, 0xFD), (0xFF, 0x103), (0x106, 0x10F), (0x112, 0x117), (0x11A, 0x125), (0x12A, 0x12D),
  (0x130, 0x130), (0x132, 0x137), (0x139, 0x13E), (0x143, 0x149), (0x14C, 0x14F), (0x154, 0x165),
  (0x16A, 0x16F), (0x174, 0x17F), (0x1A0, 0x1A1), (0x1AF, 0x1B0), (0x1B7, 0x1B7), (0x1C4, 0x1C6),
  (0x1CD, 0x1DC), (0x1DE, 0x1E1), (0x1E6, 0x1E9), (0x1EE, 0x1EE), (0x1F0, 0x1F0), (0x1F4, 0x1F5),
  (0x1F8, 0x1FB), (0x21E, 0x21F), (0x226, 0x22B), (0x22E, 0x233), (0x2B9, 0x2B9), (0x2BC, 0x2BC),
  (0x2BE, 0x2BE), (0x374, 0x374), (0x38E, 0x390), (0x3A5, 0x3A5), (0x3A9, 0x3A9), (0x3AB, 0x3AC),
  (0x3AF, 0x3AF), (0x3B1, 0x3B1), (0x3B9, 0x3B9), (0x3BC, 0x3BC), (0x3C9, 0x3CA), (0x3CE, 0x3CE),
  (0x3D2, 0x3D4), (0x5D0, 0x5D0), (0x5D9, 0x5D9), (0x5DC, 0x5DC), (0x5E9, 0x5E9), (0x622, 0x627),
  (0x62A, 0x62A), (0x62E, 0x62E), (0x632, 0x635), (0x639, 0x639), (0x640, 0x640), (0x644, 0x64A),
  (0x674, 0x675), (0x905, 0x905), (0x915, 0x915), (0x928, 0x929), (0x958, 0x958), (0xE01, 0xE01),
  (0xE32, 0xE32), (0xE99, 0xE99), (0xEAB, 0xEAB), (0xEB2, 0xEB2), (0xEDC, 0xEDC), (0xF42, 0xF43),
  (0x1025, 0x1026), (0x10FF, 0x1106), (0x1108, 0x1109), (0x110B, 0x110B), (0x110D, 0x110F),
  (0x1111, 0x1113), (0x115F, 0x1161), (0x1163, 0x1164), (0x1166, 0x1167), (0x1169, 0x116A),
  (0x116C, 0x116D), (0x116F, 0x1176), (0x11A6, 0x11A9), (0x11AE, 0x11AF), (0x11B4, 0x11B6),
  (0x11B8, 0x11B9), (0x11BB, 0x11BB), (0x11C0, 0x11C3), (0x1885, 0x1886), (0x1B05, 0x1B06),
  (0x1E02, 0x1E05), (0x1E08, 0x1E0D), (0x1E10, 0x1E11), (0x1E14, 0x1E17), (0x1E1C, 0x1E29),
  (0x1E2E, 0x1E33), (0x1E36, 0x1E39), (0x1E3E, 0x1E47), (0x1E50, 0x1E5D), (0x1E60, 0x1E6D),
  (0x1E7A, 0x1E7B), (0x1E7E, 0x1E93), (0x1E97, 0x1E9B), (0x1EA0, 0x1EA1), (0x1EA4, 0x1EA7),
  (0x1EAC, 0x1EB1), (0x1EB6, 0x1EB9), (0x1EBE, 0x1EC1), (0x1EC6, 0x1EC7), (0x1ECA, 0x1ECD),
  (0x1ED0, 0x1ED3), (0x1ED8, 0x1EDD), (0x1EE2, 0x1EE5), (0x1EE8, 0x1EEB), (0x1EF0, 0x1EF5),
  (0x1F00, 0x1F00), (0x1F02, 0x1F02), (0x1F04, 0x1F04), (0x1F30, 0x1F30), (0x1F32, 0x1F32),
  (0x1F34, 0x1F34), (0x1F60, 0x1F60), (0x1F62, 0x1F62), (0x1F64, 0x1F64), (0x1F68, 0x1F68),
  (0x1F6A, 0x1F6A), (0x1F6C, 0x1F6C), (0x1F70, 0x1F70), (0x1F76, 0x1F76), (0x1F7C, 0x1F7C),
  (0x1F80, 0x1F80), (0x1F82, 0x1F82), (0x1F84, 0x1F84), (0x1FA0, 0x1FA0), (0x1FA2, 0x1FA2),
  (0x1FA4, 0x1FA4), (0x1FA8, 0x1FA8), (0x1FAA, 0x1FAA), (0x1FAC, 0x1FAC), (0x1FB0, 0x1FB4),
  (0x1FBE, 0x1FBE), (0x1FD0, 0x1FD2), (0x1FE8, 0x1FEA), (0x1FF2, 0x1FF4), (0x1FFA, 0x1FFA),
  (0x1FFC, 0x1FFC), (0x2099, 0x2099), (0x210C, 0x210C), (0x2118, 0x2118), (0x2126, 0x2126),
  (0x212A, 0x212B), (0x212E, 0x212E), (0x2160, 0x2160), (0x2167, 0x2167), (0x216B, 0x216B),
  (0x217B, 0x217B), (0x2C7C, 0x2C7C), (0x3007, 0x3007), (0x304B, 0x304C), (0x306F, 0x3071),
  (0x3088, 0x3088), (0x308A, 0x308A), (0x309D, 0x309F), (0x30A2, 0x30A2), (0x30AB, 0x30AE),
  (0x30B3, 0x30B4), (0x30B7, 0x30B8), (0x30C4, 0x30C5), (0x30C8, 0x30C9), (0x30CF, 0x30D4),
  (0x30D8, 0x30DA), (0x30FC, 0x30FC), (0x30FF, 0x30FF), (0x3131, 0x3131), (0x314F, 0x314F),
  (0x3164, 0x3164), (0x4E00, 0x4E00), (0x4E3D, 0x4E3D), (0x4F1A, 0x4F1A), (0x4F60, 0x4F60),
  (0x4FAE, 0x4FAE), (0x5225, 0x5225), (0x5B50, 0x5B50), (0x5F0F, 0x5F0F), (0x672C, 0x672C),
  (0x682A, 0x682A), (0x6BCD, 0x6BCD), (0x793E, 0x793E), (0x8B58, 0x8B58), (0x8C48, 0x8C48),
  (0x9F8E, 0x9F8E), (0xF900, 0xF900), (0xFA30, 0xFA30), (0xFAD9, 0xFAD9), (0xFB00, 0xFB01),
  (0xFB03, 0xFB03), (0xFB1D, 0xFB1D), (0xFB2A, 0xFB2A), (0xFB2C, 0xFB2C), (0xFB4F, 0xFB4F),
  (0xFE71, 0xFE71), (0xFE8E, 0xFE8E), (0xFEDF, 0xFEDF), (0xFEFB, 0xFEFB), (0xFF21, 0xFF23),
  (0xFF26, 0xFF26), (0xFF2E, 0xFF2E), (0xFF32, 0xFF32), (0xFF34, 0xFF34), (0xFF38, 0xFF38),
  (0xFF41, 0xFF46), (0xFF48, 0xFF49), (0xFF4C, 0xFF50), (0xFF52, 0xFF59), (0xFF76, 0xFF77),
  (0xFF7C, 0xFF7C), (0xFF82, 0xFF82), (0xFF8A, 0xFF8B), (0xFF8D, 0xFF8D), (0xFFA0, 0xFFA1),
  (0xFFC2, 0xFFC2), (0x10400, 0x10400), (0x11099, 0x1109A), (0x1D400, 0x1D400), (0x1D4CD, 0x1D4CD),
  (0x1EE00, 0x1EE00), (0x20000, 0x20000), (0x2F800, 0x2F800)]

/-- Ranges of XID_Continue that are not XID_Start. -/
def identifierExtras : Array (Nat × Nat) := #[
  (0xB7, 0xB7), (0x300, 0x302), (0x304, 0x304), (0x306, 0x308), (0x30A, 0x30A), (0x30C, 0x30C),
  (0x313, 0x313), (0x315, 0x316), (0x31B, 0x31B), (0x321, 0x321), (0x323, 0x323), (0x327, 0x327),
  (0x334, 0x334), (0x338, 0x338), (0x340, 0x341), (0x344, 0x345), (0x34F, 0x34F), (0x35F, 0x35F),
  (0x387, 0x387), (0x5AE, 0x5AE), (0x5B0, 0x5B0), (0x5B4, 0x5B4), (0x5B7, 0x5B7), (0x5BC, 0x5BC),
  (0x5C1, 0x5C1), (0x64B, 0x64C), (0x64E, 0x64E), (0x651, 0x651), (0x653, 0x655), (0x661, 0x663),
  (0x902, 0x902), (0x93C, 0x93C), (0x94D, 0x94D), (0x981, 0x981), (0x9BE, 0x9BE), (0x9C7, 0x9C7),
  (0x9CB, 0x9CC), (0x9D7, 0x9D7), (0xBBE, 0xBBE), (0xBC6, 0xBC6), (0xBCA, 0xBCA), (0xCC2, 0xCC2),
  (0xCC6, 0xCC7), (0xCCA, 0xCCB), (0xCD5, 0xCD5), (0xDCA, 0xDCA), (0xDCF, 0xDCF), (0xDD9, 0xDDA),
  (0xDDC, 0xDDD), (0xE33, 0xE33), (0xE38, 0xE38), (0xE48, 0xE48), (0xE4D, 0xE4D), (0xEB3, 0xEB3),
  (0xECD, 0xECD), (0xF71, 0xF75), (0xF77, 0xF77), (0xF80, 0xF81), (0xFB2, 0xFB3), (0xFB7, 0xFB7),
  (0x102E, 0x102E), (0x1369, 0x1369), (0x19DA, 0x19DA), (0x1B35, 0x1B35), (0x200C, 0x200D),
  (0x203F, 0x2040), (0x3099, 0x309A), (0x30FB, 0x30FB), (0xFE0F, 0xFE0F), (0xFE33, 0xFE33),
  (0xFE4D, 0xFE4D), (0xFF11, 0xFF13), (0xFF3F, 0xFF3F), (0xFF65, 0xFF65), (0xFF9E, 0xFF9F),
  (0x110BA, 0x110BA), (0x11127, 0x11127), (0x1112E, 0x1112E), (0x11131, 0x11131),
  (0x1133E, 0x1133E), (0x11347, 0x11347), (0x1134B, 0x1134C), (0x11357, 0x11357),
  (0x114B9, 0x114BB), (0x115AF, 0x115AF), (0x115B8, 0x115B8), (0x115BA, 0x115BA),
  (0x11930, 0x11930), (0x11935, 0x11935), (0x11938, 0x11938), (0x1D165, 0x1D165),
  (0x1D16E, 0x1D16E), (0x1D7CE, 0x1D7CE), (0x1D7D8, 0x1D7D8), (0x1D7FF, 0x1D7FF),
  (0x1FBF0, 0x1FBF0), (0xE0100, 0xE0100)]

/-- Ranges of class 0 for which the NFKC quick check does not say yes. -/
def quickDoubts : Array (Nat × Nat) := #[
  (0xA0, 0xA0), (0xA8, 0xA8), (0xAA, 0xAA), (0xB2, 0xB2), (0xB4, 0xB5), (0xBA, 0xBA), (0xBD, 0xBD),
  (0x132, 0x133), (0x149, 0x149), (0x17F, 0x17F), (0x1C4, 0x1C6), (0x374, 0x374), (0x37A, 0x37A),
  (0x37E, 0x37E), (0x385, 0x385), (0x387, 0x387), (0x3D2, 0x3D4), (0x675, 0x675), (0x958, 0x958),
  (0x9BE, 0x9BE), (0x9D7, 0x9D7), (0xBBE, 0xBBE), (0xCC2, 0xCC2), (0xCD5, 0xCD5), (0xDCF, 0xDCF),
  (0xE33, 0xE33), (0xEB3, 0xEB3), (0xEDC, 0xEDC), (0xF0C, 0xF0C), (0xF43, 0xF43), (0xF73, 0xF73),
  (0xF75, 0xF75), (0xF77, 0xF77), (0xF81, 0xF81), (0x102E, 0x102E), (0x1161, 0x1161),
  (0x1163, 0x1164), (0x1166, 0x1167), (0x1169, 0x116A), (0x116C, 0x116D), (0x116F, 0x1175),
  (0x11A8, 0x11A9), (0x11AE, 0x11AF), (0x11B4, 0x11B6), (0x11B8, 0x11B9), (0x11BB, 0x11BB),
  (0x11C0, 0x11C2), (0x1B35, 0x1B35), (0x1E9A, 0x1E9B), (0x1FBE, 0x1FBE), (0x1FED, 0x1FEE),
  (0x1FFD, 0x1FFD), (0x2002, 0x2002), (0x2011, 0x2011), (0x2026, 0x2026), (0x2033, 0x2033),
  (0x203C, 0x203C), (0x2070, 0x2070), (0x2099, 0x2099), (0x20A8, 0x20A8), (0x2100, 0x2100),
  (0x210C, 0x210C), (0x2126, 0x2126), (0x212A, 0x212B), (0x2153, 0x2153), (0x2160, 0x2160),
  (0x2167, 0x2167), (0x216B, 0x216B), (0x217B, 0x217B), (0x222C, 0x222C), (0x2460, 0x2460),
  (0x249C, 0x249C), (0x2ADC, 0x2ADC), (0x2C7C, 0x2C7C), (0x2E9F, 0x2E9F), (0x2F00, 0x2F00),
  (0x3000, 0x3000), (0x309B, 0x309B), (0x309F, 0x309F), (0x30FF, 0x30FF), (0x3131, 0x3131),
  (0x314F, 0x314F), (0x3164, 0x3164), (0x3200, 0x3200), (0x320E, 0x320E), (0x32D0, 0x32D0),
  (0x3300, 0x3300), (0x337F, 0x337F), (0x33A5, 0x33A5), (0xF900, 0xF900), (0xFA30, 0xFA30),
  (0xFAD9, 0xFAD9), (0xFB00, 0xFB01), (0xFB03, 0xFB03), (0xFB1D, 0xFB1D), (0xFB2A, 0xFB2A),
  (0xFB2C, 0xFB2C), (0xFB4F, 0xFB4F), (0xFC5E, 0xFC5E), (0xFDFA, 0xFDFA), (0xFE13, 0xFE13),
  (0xFE33, 0xFE33), (0xFE4D, 0xFE4D), (0xFE70, 0xFE71), (0xFE8E, 0xFE8E), (0xFEDF, 0xFEDF),
  (0xFEFB, 0xFEFB), (0xFF01, 0xFF01), (0xFF08, 0xFF09), (0xFF11, 0xFF13), (0xFF1B, 0xFF1B),
  (0xFF1D, 0xFF1D), (0xFF21, 0xFF23), (0xFF26, 0xFF26), (0xFF2E, 0xFF2E), (0xFF32, 0xFF32),
  (0xFF34, 0xFF34), (0xFF38, 0xFF38), (0xFF3F, 0xFF3F), (0xFF41, 0xFF46), (0xFF48, 0xFF49),
  (0xFF4C, 0xFF50), (0xFF52, 0xFF59), (0xFF65, 0xFF65), (0xFF76, 0xFF77), (0xFF7C, 0xFF7C),
  (0xFF82, 0xFF82), (0xFF8A, 0xFF8B), (0xFF8D, 0xFF8D), (0xFF9E, 0xFFA1), (0xFFC2, 0xFFC2),
  (0xFFE3, 0xFFE3), (0xFFE6, 0xFFE6), (0x11127, 0x11127), (0x1133E, 0x1133E), (0x11357, 0x11357),
  (0x114BA, 0x114BA), (0x115AF, 0x115AF), (0x11930, 0x11930), (0x1D15E, 0x1D15E),
  (0x1D160, 0x1D160), (0x1D400, 0x1D400), (0x1D4CD, 0x1D4CD), (0x1D7CE, 0x1D7CE),
  (0x1D7D8, 0x1D7D8), (0x1D7FF, 0x1D7FF), (0x1EE00, 0x1EE00), (0x1F100, 0x1F100),
  (0x1F240, 0x1F240), (0x1FBF0, 0x1FBF0), (0x2F800, 0x2F800)]

/-- Combining classes other than 0. -/
def combiningClasses : Array (Nat × Nat) := #[
  (0x300, 230), (0x301, 230), (0x302, 230), (0x304, 230), (0x306, 230), (0x307, 230), (0x308, 230),
  (0x30A, 230), (0x30C, 230), (0x313, 230), (0x315, 232), (0x316, 220), (0x31B, 216), (0x321, 202),
  (0x323, 220), (0x327, 202), (0x334, 1), (0x338, 1), (0x340, 230), (0x341, 230), (0x344, 230),
  (0x345, 240), (0x35F, 233), (0x5AE, 228), (0x5B0, 10), (0x5B4, 14), (0x5B7, 17), (0x5BC, 21),
  (0x5C1, 24), (0x64B, 27), (0x64C, 28), (0x64E, 30), (0x651, 33), (0x653, 230), (0x654, 230),
  (0x655, 220), (0x93C, 7), (0x94D, 9), (0xDCA, 9), (0xE38, 103), (0xE48, 107), (0xF71, 129),
  (0xF72, 130), (0xF74, 132), (0xF80, 130), (0x3099, 8), (0x309A, 8), (0x110BA, 7), (0x1D165, 216),
  (0x1D16E, 216)]

/-- Full compatibility decompositions. -/
def decompositions : Array (Nat × List Nat) := #[
  (0xA0, [0x20]), (0xA8, [0x20, 0x308]), (0xAA, [0x61]), (0xB2, [0x32]), (0xB4, [0x20, 0x301]),
  (0xB5, [0x3BC]), (0xBA, [0x6F]), (0xBD, [0x31, 0x2044, 0x32]), (0xC0, [0x41, 0x300]),
  (0xC1, [0x41, 0x301]), (0xC2, [0x41, 0x302]), (0xC4, [0x41, 0x308]), (0xC5, [0x41, 0x30A]),
  (0xC7, [0x43, 0x327]), (0xC8, [0x45, 0x300]), (0xC9, [0x45, 0x301]), (0xCA, [0x45, 0x302]),
  (0xCB, [0x45, 0x308]), (0xCC, [0x49, 0x300]), (0xCD, [0x49, 0x301]), (0xCE, [0x49, 0x302]),
  (0xCF, [0x49, 0x308]), (0xD2, [0x4F, 0x300]), (0xD3, [0x4F, 0x301]), (0xD4, [0x4F, 0x302]),
  (0xD6, [0x4F, 0x308]), (0xD9, [0x55, 0x300]), (0xDA, [0x55, 0x301]), (0xDB, [0x55, 0x302]),
  (0xDC, [0x55, 0x308]), (0xDD, [0x59, 0x301]), (0xE0, [0x61, 0x300]), (0xE1, [0x61, 0x301]),
  (0xE2, [0x61, 0x302]), (0xE4, [0x61, 0x308]), (0xE5, [0x61, 0x30A]), (0xE7, [0x63, 0x327]),
  (0xE8, [0x65, 0x300]), (0xE9, [0x65, 0x301]), (0xEA, [0x65, 0x302]), (0xEB, [0x65, 0x308]),
  (0xEC, [0x69, 0x300]), (0xED, [0x69, 0x301]), (0xEE, [0x69, 0x302]), (0xEF, [0x69, 0x308]),
  (0xF2, [0x6F, 0x300]), (0xF3, [0x6F, 0x301]), (0xF4, [0x6F, 0x302]), (0xF6, [0x6F, 0x308]),
  (0xF9, [0x75, 0x300]), (0xFA, [0x75, 0x301]), (0xFB, [0x75, 0x302]), (0xFC, [0x75, 0x308]),
  (0xFD, [0x79, 0x301]), (0xFF, [0x79, 0x308]), (0x100, [0x41, 0x304]), (0x101, [0x61, 0x304]),
  (0x102, [0x41, 0x306]), (0x103, [0x61, 0x306]), (0x106, [0x43, 0x301]), (0x107, [0x63, 0x301]),
  (0x108, [0x43, 0x302]), (0x109, [0x63, 0x302]), (0x10A, [0x43, 0x307]), (0x10B, [0x63, 0x307]),
  (0x10C, [0x43, 0x30C]), (0x10D, [0x63, 0x30C]), (0x10E, [0x44, 0x30C]), (0x10F, [0x64, 0x30C]),
  (0x112, [0x45, 0x304]), (0x113, [0x65, 0x304]), (0x114, [0x45, 0x306]), (0x115, [0x65, 0x306]),
  (0x116, [0x45, 0x307]), (0x117, [0x65, 0x307]), (0x11A, [0x45, 0x30C]), (0x11B, [0x65, 0x30C]),
  (0x11C, [0x47, 0x302]), (0x11D, [0x67, 0x302]), (0x11E, [0x47, 0x306]), (0x11F, [0x67, 0x306]),
  (0x120, [0x47, 0x307]), (0x121, [0x67, 0x307]), (0x122, [0x47, 0x327]), (0x123, [0x67, 0x327]),
  (0x124, [0x48, 0x302]), (0x125, [0x68, 0x302]), (0x12A, [0x49, 0x304]), (0x12B, [0x69, 0x304]),
  (0x12C, [0x49, 0x306]), (0x12D, [0x69, 0x306]), (0x130, [0x49, 0x307]), (0x132, [0x49, 0x4A]),
  (0x133, [0x69, 0x6A]), (0x134, [0x4A, 0x302]), (0x135, [0x6A, 0x302]), (0x136, [0x4B, 0x327]),
  (0x137, [0x6B, 0x327]), (0x139, [0x4C, 0x301]), (0x13A, [0x6C, 0x301]), (0x13B, [0x4C, 0x327]),
  (0x13C, [0x6C, 0x327]), (0x13D, [0x4C, 0x30C]), (0x13E, [0x6C, 0x30C]), (0x143, [0x4E, 0x301]),
  (0x144, [0x6E, 0x301]), (0x145, [0x4E, 0x327]), (0x146, [0x6E, 0x327]), (0x147, [0x4E, 0x30C]),
  (0x148, [0x6E, 0x30C]), (0x149, [0x2BC, 0x6E]), (0x14C, [0x4F, 0x304]), (0x14D, [0x6F, 0x304]),
  (0x14E, [0x4F, 0x306]), (0x14F, [0x6F, 0x306]), (0x154, [0x52, 0x301]), (0x155, [0x72, 0x301]),
  (0x156, [0x52, 0x327]), (0x157, [0x72, 0x327]), (0x158, [0x52, 0x30C]), (0x159, [0x72, 0x30C]),
  (0x15A, [0x53, 0x301]), (0x15B, [0x73, 0x301]), (0x15C, [0x53, 0x302]), (0x15D, [0x73, 0x302]),
  (0x15E, [0x53, 0x327]), (0x15F, [0x73, 0x327]), (0x160, [0x53, 0x30C]), (0x161, [0x73, 0x30C]),
  (0x162, [0x54, 0x327]), (0x163, [0x74, 0x327]), (0x164, [0x54, 0x30C]), (0x165, [0x74, 0x30C]),
  (0x16A, [0x55, 0x304]), (0x16B, [0x75, 0x304]), (0x16C, [0x55, 0x306]), (0x16D, [0x75, 0x306]),
  (0x16E, [0x55, 0x30A]), (0x16F, [0x75, 0x30A]), (0x174, [0x57, 0x302]), (0x175, [0x77, 0x302]),
  (0x176, [0x59, 0x302]), (0x177, [0x79, 0x302]), (0x178, [0x59, 0x308]), (0x179, [0x5A, 0x301]),
  (0x17A, [0x7A, 0x301]), (0x17B, [0x5A, 0x307]), (0x17C, [0x7A, 0x307]), (0x17D, [0x5A, 0x30C]),
  (0x17E, [0x7A, 0x30C]), (0x17F, [0x73]), (0x1A0, [0x4F, 0x31B]), (0x1A1, [0x6F, 0x31B]),
  (0x1AF, [0x55, 0x31B]), (0x1B0, [0x75, 0x31B]), (0x1C4, [0x44, 0x5A, 0x30C]),
  (0x1C5, [0x44, 0x7A, 0x30C]), (0x1C6, [0x64, 0x7A, 0x30C]), (0x1CD, [0x41, 0x30C]),
  (0x1CE, [0x61, 0x30C]), (0x1CF, [0x49, 0x30C]), (0x1D0, [0x69, 0x30C]), (0x1D1, [0x4F, 0x30C]),
  (0x1D2, [0x6F, 0x30C]), (0x1D3, [0x55, 0x30C]), (0x1D4, [0x75, 0x30C]),
  (0x1D5, [0x55, 0x308, 0x304]), (0x1D6, [0x75, 0x308, 0x304]), (0x1D7, [0x55, 0x308, 0x301]),
  (0x1D8, [0x75, 0x308, 0x301]), (0x1D9, [0x55, 0x308, 0x30C]), (0x1DA, [0x75, 0x308, 0x30C]),
  (0x1DB, [0x55, 0x308, 0x300]), (0x1DC, [0x75, 0x308, 0x300]), (0x1DE, [0x41, 0x308, 0x304]),
  (0x1DF, [0x61, 0x308, 0x304]), (0x1E0, [0x41, 0x307, 0x304]), (0x1E1, [0x61, 0x307, 0x304]),
  (0x1E6, [0x47, 0x30C]), (0x1E7, [0x67, 0x30C]), (0x1E8, [0x4B, 0x30C]), (0x1E9, [0x6B, 0x30C]),
  (0x1EE, [0x1B7, 0x30C]), (0x1F0, [0x6A, 0x30C]), (0x1F4, [0x47, 0x301]), (0x1F5, [0x67, 0x301]),
  (0x1F8, [0x4E, 0x300]), (0x1F9, [0x6E, 0x300]), (0x1FA, [0x41, 0x30A, 0x301]),
  (0x1FB, [0x61, 0x30A, 0x301]), (0x21E, [0x48, 0x30C]), (0x21F, [0x68, 0x30C]),
  (0x226, [0x41, 0x307]), (0x227, [0x61, 0x307]), (0x228, [0x45, 0x327]), (0x229, [0x65, 0x327]),
  (0x22A, [0x4F, 0x308, 0x304]), (0x22B, [0x6F, 0x308, 0x304]), (0x22E, [0x4F, 0x307]),
  (0x22F, [0x6F, 0x307]), (0x230, [0x4F, 0x307, 0x304]), (0x231, [0x6F, 0x307, 0x304]),
  (0x232, [0x59, 0x304]), (0x233, [0x79, 0x304]), (0x340, [0x300]), (0x341, [0x301]),
  (0x344, [0x308, 0x301]), (0x374, [0x2B9]), (0x37A, [0x20, 0x345]), (0x37E, [0x3B]),
  (0x385, [0x20, 0x308, 0x301]), (0x387, [0xB7]), (0x38E, [0x3A5, 0x301]), (0x38F, [0x3A9, 0x301]),
  (0x390, [0x3B9, 0x308, 0x301]), (0x3AB, [0x3A5, 0x308]), (0x3AC, [0x3B1, 0x301]),
  (0x3AF, [0x3B9, 0x301]), (0x3CA, [0x3B9, 0x308]), (0x3CE, [0x3C9, 0x301]), (0x3D2, [0x3A5]),
  (0x3D3, [0x3A5, 0x301]), (0x3D4, [0x3A5, 0x308]), (0x622, [0x627, 0x653]),
  (0x623, [0x627, 0x654]), (0x624, [0x648, 0x654]), (0x625, [0x627, 0x655]),
  (0x626, [0x64A, 0x654]), (0x675, [0x627, 0x674]), (0x929, [0x928, 0x93C]),
  (0x958, [0x915, 0x93C]), (0x9CB, [0x9C7, 0x9BE]), (0x9CC, [0x9C7, 0x9D7]),
  (0xBCA, [0xBC6, 0xBBE]), (0xCC7, [0xCC6, 0xCD5]), (0xCCA, [0xCC6, 0xCC2]),
  (0xCCB, [0xCC6, 0xCC2, 0xCD5]), (0xDDA, [0xDD9, 0xDCA]), (0xDDC, [0xDD9, 0xDCF]),
  (0xDDD, [0xDD9, 0xDCF, 0xDCA]), (0xE33, [0xE4D, 0xE32]), (0xEB3, [0xECD, 0xEB2]),
  (0xEDC, [0xEAB, 0xE99]), (0xF0C, [0xF0B]), (0xF43, [0xF42, 0xFB7]), (0xF73, [0xF71, 0xF72]),
  (0xF75, [0xF71, 0xF74]), (0xF77, [0xFB2, 0xF71, 0xF80]), (0xF81, [0xF71, 0xF80]),
  (0x1026, [0x1025, 0x102E]), (0x1B06, [0x1B05, 0x1B35]), (0x1E02, [0x42, 0x307]),
  (0x1E03, [0x62, 0x307]), (0x1E04, [0x42, 0x323]), (0x1E05, [0x62, 0x323]),
  (0x1E08, [0x43, 0x327, 0x301]), (0x1E09, [0x63, 0x327, 0x301]), (0x1E0A, [0x44, 0x307]),
  (0x1E0B, [0x64, 0x307]), (0x1E0C, [0x44, 0x323]), (0x1E0D, [0x64, 0x323]),
  (0x1E10, [0x44, 0x327]), (0x1E11, [0x64, 0x327]), (0x1E14, [0x45, 0x304, 0x300]),
  (0x1E15, [0x65, 0x304, 0x300]), (0x1E16, [0x45, 0x304, 0x301]), (0x1E17, [0x65, 0x304, 0x301]),
  (0x1E1C, [0x45, 0x327, 0x306]), (0x1E1D, [0x65, 0x327, 0x306]), (0x1E1E, [0x46, 0x307]),
  (0x1E1F, [0x66, 0x307]), (0x1E20, [0x47, 0x304]), (0x1E21, [0x67, 0x304]),
  (0x1E22, [0x48, 0x307]), (0x1E23, [0x68, 0x307]), (0x1E24, [0x48, 0x323]),
  (0x1E25, [0x68, 0x323]), (0x1E26, [0x48, 0x308]), (0x1E27, [0x68, 0x308]),
  (0x1E28, [0x48, 0x327]), (0x1E29, [0x68, 0x327]), (0x1E2E, [0x49, 0x308, 0x301]),
  (0x1E2F, [0x69, 0x308, 0x301]), (0x1E30, [0x4B, 0x301]), (0x1E31, [0x6B, 0x301]),
  (0x1E32, [0x4B, 0x323]), (0x1E33, [0x6B, 0x323]), (0x1E36, [0x4C, 0x323]),
  (0x1E37, [0x6C, 0x323]), (0x1E38, [0x4C, 0x323, 0x304]), (0x1E39, [0x6C, 0x323, 0x304]),
  (0x1E3E, [0x4D, 0x301]), (0x1E3F, [0x6D, 0x301]), (0x1E40, [0x4D, 0x307]),
  (0x1E41, [0x6D, 0x307]), (0x1E42, [0x4D, 0x323]), (0x1E43, [0x6D, 0x323]),
  (0x1E44, [0x4E, 0x307]), (0x1E45, [0x6E, 0x307]), (0x1E46, [0x4E, 0x323]),
  (0x1E47, [0x6E, 0x323]), (0x1E50, [0x4F, 0x304, 0x300]), (0x1E51, [0x6F, 0x304, 0x300]),
  (0x1E52, [0x4F, 0x304, 0x301]), (0x1E53, [0x6F, 0x304, 0x301]), (0x1E54, [0x50, 0x301]),
  (0x1E55, [0x70, 0x301]), (0x1E56, [0x50, 0x307]), (0x1E57, [0x70, 0x307]),
  (0x1E58, [0x52, 0x307]), (0x1E59, [0x72, 0x307]), (0x1E5A, [0x52, 0x323]),
  (0x1E5B, [0x72, 0x323]), (0x1E5C, [0x52, 0x323, 0x304]), (0x1E5D, [0x72, 0x323, 0x304]),
  (0x1E60, [0x53, 0x307]), (0x1E61, [0x73, 0x307]), (0x1E62, [0x53, 0x323]),
  (0x1E63, [0x73, 0x323]), (0x1E64, [0x53, 0x301, 0x307]), (0x1E65, [0x73, 0x301, 0x307]),
  (0x1E66, [0x53, 0x30C, 0x307]), (0x1E67, [0x73, 0x30C, 0x307]), (0x1E68, [0x53, 0x323, 0x307]),
  (0x1E69, [0x73, 0x323, 0x307]), (0x1E6A, [0x54, 0x307]), (0x1E6B, [0x74, 0x307]),
  (0x1E6C, [0x54, 0x323]), (0x1E6D, [0x74, 0x323]), (0x1E7A, [0x55, 0x304, 0x308]),
  (0x1E7B, [0x75, 0x304, 0x308]), (0x1E7E, [0x56, 0x323]), (0x1E7F, [0x76, 0x323]),
  (0x1E80, [0x57, 0x300]), (0x1E81, [0x77, 0x300]), (0x1E82, [0x57, 0x301]),
  (0x1E83, [0x77, 0x301]), (0x1E84, [0x57, 0x308]), (0x1E85, [0x77, 0x308]),
  (0x1E86, [0x57, 0x307]), (0x1E87, [0x77, 0x307]), (0x1E88, [0x57, 0x323]),
  (0x1E89, [0x77, 0x323]), (0x1E8A, [0x58, 0x307]), (0x1E8B, [0x78, 0x307]),
  (0x1E8C, [0x58, 0x308]), (0x1E8D, [0x78, 0x308]), (0x1E8E, [0x59, 0x307]),
  (0x1E8F, [0x79, 0x307]), (0x1E90, [0x5A, 0x302]), (0x1E91, [0x7A, 0x302]),
  (0x1E92, [0x5A, 0x323]), (0x1E93, [0x7A, 0x323]), (0x1E97, [0x74, 0x308]),
  (0x1E98, [0x77, 0x30A]), (0x1E99, [0x79, 0x30A]), (0x1E9A, [0x61, 0x2BE]),
  (0x1E9B, [0x73, 0x307]), (0x1EA0, [0x41, 0x323]), (0x1EA1, [0x61, 0x323]),
  (0x1EA4, [0x41, 0x302, 0x301]), (0x1EA5, [0x61, 0x302, 0x301]), (0x1EA6, [0x41, 0x302, 0x300]),
  (0x1EA7, [0x61, 0x302, 0x300]), (0x1EAC, [0x41, 0x323, 0x302]), (0x1EAD, [0x61, 0x323, 0x302]),
  (0x1EAE, [0x41, 0x306, 0x301]), (0x1EAF, [0x61, 0x306, 0x301]), (0x1EB0, [0x41, 0x306, 0x300]),
  (0x1EB1, [0x61, 0x306, 0x300]), (0x1EB6, [0x41, 0x323, 0x306]), (0x1EB7, [0x61, 0x323, 0x306]),
  (0x1EB8, [0x45, 0x323]), (0x1EB9, [0x65, 0x323]), (0x1EBE, [0x45, 0x302, 0x301]),
  (0x1EBF, [0x65, 0x302, 0x301]), (0x1EC0, [0x45, 0x302, 0x300]), (0x1EC1, [0x65, 0x302, 0x300]),
  (0x1EC6, [0x45, 0x323, 0x302]), (0x1EC7, [0x65, 0x323, 0x302]), (0x1ECA, [0x49, 0x323]),
  (0x1ECB, [0x69, 0x323]), (0x1ECC, [0x4F, 0x323]), (0x1ECD, [0x6F, 0x323]),
  (0x1ED0, [0x4F, 0x302, 0x301]), (0x1ED1, [0x6F, 0x302, 0x301]), (0x1ED2, [0x4F, 0x302, 0x300]),
  (0x1ED3, [0x6F, 0x302, 0x300]), (0x1ED8, [0x4F, 0x323, 0x302]), (0x1ED9, [0x6F, 0x323, 0x302]),
  (0x1EDA, [0x4F, 0x31B, 0x301]), (0x1EDB, [0x6F, 0x31B, 0x301]), (0x1EDC, [0x4F, 0x31B, 0x300]),
  (0x1EDD, [0x6F, 0x31B, 0x300]), (0x1EE2, [0x4F, 0x31B, 0x323]), (0x1EE3, [0x6F, 0x31B, 0x323]),
  (0x1EE4, [0x55, 0x323]), (0x1EE5, [0x75, 0x323]), (0x1EE8, [0x55, 0x31B, 0x301]),
  (0x1EE9, [0x75, 0x31B, 0x301]), (0x1EEA, [0x55, 0x31B, 0x300]), (0x1EEB, [0x75, 0x31B, 0x300]),
  (0x1EF0, [0x55, 0x31B, 0x323]), (0x1EF1, [0x75, 0x31B, 0x323]), (0x1EF2, [0x59, 0x300]),
  (0x1EF3, [0x79, 0x300]), (0x1EF4, [0x59, 0x323]), (0x1EF5, [0x79, 0x323]),
  (0x1F00, [0x3B1, 0x313]), (0x1F02, [0x3B1, 0x313, 0x300]), (0x1F04, [0x3B1, 0x313, 0x301]),
  (0x1F30, [0x3B9, 0x313]), (0x1F32, [0x3B9, 0x313, 0x300]), (0x1F34, [0x3B9, 0x313, 0x301]),
  (0x1F60, [0x3C9, 0x313]), (0x1F62, [0x3C9, 0x313, 0x300]), (0x1F64, [0x3C9, 0x313, 0x301]),
  (0x1F68, [0x3A9, 0x313]), (0x1F6A, [0x3A9, 0x313, 0x300]), (0x1F6C, [0x3A9, 0x313, 0x301]),
  (0x1F70, [0x3B1, 0x300]), (0x1F76, [0x3B9, 0x300]), (0x1F7C, [0x3C9, 0x300]),
  (0x1F80, [0x3B1, 0x313, 0x345]), (0x1F82, [0x3B1, 0x313, 0x300, 0x345]),
  (0x1F84, [0x3B1, 0x313, 0x301, 0x345]), (0x1FA0, [0x3C9, 0x313, 0x345]),
  (0x1FA2, [0x3C9, 0x313, 0x300, 0x345]), (0x1FA4, [0x3C9, 0x313, 0x301, 0x345]),
  (0x1FA8, [0x3A9, 0x313, 0x345]), (0x1FAA, [0x3A9, 0x313, 0x300, 0x345]),
  (0x1FAC, [0x3A9, 0x313, 0x301, 0x345]), (0x1FB0, [0x3B1, 0x306]), (0x1FB1, [0x3B1, 0x304]),
  (0x1FB2, [0x3B1, 0x300, 0x345]), (0x1FB3, [0x3B1, 0x345]), (0x1FB4, [0x3B1, 0x301, 0x345]),
  (0x1FBE, [0x3B9]), (0x1FD0, [0x3B9, 0x306]), (0x1FD1, [0x3B9, 0x304]),
  (0x1FD2, [0x3B9, 0x308, 0x300]), (0x1FE8, [0x3A5, 0x306]), (0x1FE9, [0x3A5, 0x304]),
  (0x1FEA, [0x3A5, 0x300]), (0x1FED, [0x20, 0x308, 0x300]), (0x1FEE, [0x20, 0x308, 0x301]),
  (0x1FF2, [0x3C9, 0x300, 0x345]), (0x1FF3, [0x3C9, 0x345]), (0x1FF4, [0x3C9, 0x301, 0x345]),
  (0x1FFA, [0x3A9, 0x300]), (0x1FFC, [0x3A9, 0x345]), (0x1FFD, [0x20, 0x301]), (0x2002, [0x20]),
  (0x2011, [0x2010]), (0x2026, [0x2E, 0x2E, 0x2E]), (0x2033, [0x2032, 0x2032]),
  (0x203C, [0x21, 0x21]), (0x2070, [0x30]), (0x2099, [0x6E]), (0x20A8, [0x52, 0x73]),
  (0x2100, [0x61, 0x2F, 0x63]), (0x210C, [0x48]), (0x2126, [0x3A9]), (0x212A, [0x4B]),
  (0x212B, [0x41, 0x30A]), (0x2153, [0x31, 0x2044, 0x33]), (0x2160, [0x49]),
  (0x2167, [0x56, 0x49, 0x49, 0x49]), (0x216B, [0x58, 0x49, 0x49]), (0x217B, [0x78, 0x69, 0x69]),
  (0x222C, [0x222B, 0x222B]), (0x2260, [0x3D, 0x338]), (0x226E, [0x3C, 0x338]),
  (0x226F, [0x3E, 0x338]), (0x2460, [0x31]), (0x249C, [0x28, 0x61, 0x29]),
  (0x2ADC, [0x2ADD, 0x338]), (0x2C7C, [0x6A]), (0x2E9F, [0x6BCD]), (0x2F00, [0x4E00]),
  (0x3000, [0x20]), (0x304C, [0x304B, 0x3099]), (0x3070, [0x306F, 0x3099]),
  (0x3071, [0x306F, 0x309A]), (0x309B, [0x20, 0x3099]), (0x309E, [0x309D, 0x3099]),
  (0x309F, [0x3088, 0x308A]), (0x30AC, [0x30AB, 0x3099]), (0x30AE, [0x30AD, 0x3099]),
  (0x30B4, [0x30B3, 0x3099]), (0x30B8, [0x30B7, 0x3099]), (0x30C5, [0x30C4, 0x3099]),
  (0x30C9, [0x30C8, 0x3099]), (0x30D0, [0x30CF, 0x3099]), (0x30D1, [0x30CF, 0x309A]),
  (0x30D3, [0x30D2, 0x3099]), (0x30D4, [0x30D2, 0x309A]), (0x30D9, [0x30D8, 0x3099]),
  (0x30DA, [0x30D8, 0x309A]), (0x30FF, [0x30B3, 0x30C8]), (0x3131, [0x1100]), (0x314F, [0x1161]),
  (0x3164, [0x1160]), (0x3200, [0x28, 0x1100, 0x29]), (0x320E, [0x28, 0x1100, 0x1161, 0x29]),
  (0x32D0, [0x30A2]), (0x3300, [0x30A2, 0x30CF, 0x309A, 0x30FC, 0x30C8]),
  (0x337F, [0x682A, 0x5F0F, 0x4F1A, 0x793E]), (0x33A5, [0x6D, 0x33]), (0xF900, [0x8C48]),
  (0xFA30, [0x4FAE]), (0xFAD9, [0x9F8E]), (0xFB00, [0x66, 0x66]), (0xFB01, [0x66, 0x69]),
  (0xFB03, [0x66, 0x66, 0x69]), (0xFB1D, [0x5D9, 0x5B4]), (0xFB2A, [0x5E9, 0x5C1]),
  (0xFB2C, [0x5E9, 0x5BC, 0x5C1]), (0xFB4F, [0x5D0, 0x5DC]), (0xFC5E, [0x20, 0x64C, 0x651]),
  (0xFDFA, [0x635, 0x644, 0x649, 0x20, 0x627, 0x644, 0x644, 0x647, 0x20, 0x639, 0x644, 0x64A, 0x647, 0x20, 0x648, 0x633, 0x644, 0x645]),
  (0xFE13, [0x3A]), (0xFE33, [0x5F]), (0xFE4D, [0x5F]), (0xFE70, [0x20, 0x64B]),
  (0xFE71, [0x640, 0x64B]), (0xFE8E, [0x627]), (0xFEDF, [0x644]), (0xFEFB, [0x644, 0x627]),
  (0xFF01, [0x21]), (0xFF08, [0x28]), (0xFF09, [0x29]), (0xFF11, [0x31]), (0xFF12, [0x32]),
  (0xFF13, [0x33]), (0xFF1B, [0x3B]), (0xFF1D, [0x3D]), (0xFF21, [0x41]), (0xFF22, [0x42]),
  (0xFF23, [0x43]), (0xFF26, [0x46]), (0xFF2E, [0x4E]), (0xFF32, [0x52]), (0xFF34, [0x54]),
  (0xFF38, [0x58]), (0xFF3F, [0x5F]), (0xFF41, [0x61]), (0xFF42, [0x62]), (0xFF43, [0x63]),
  (0xFF44, [0x64]), (0xFF45, [0x65]), (0xFF46, [0x66]), (0xFF48, [0x68]), (0xFF49, [0x69]),
  (0xFF4C, [0x6C]), (0xFF4D, [0x6D]), (0xFF4E, [0x6E]), (0xFF4F, [0x6F]), (0xFF50, [0x70]),
  (0xFF52, [0x72]), (0xFF53, [0x73]), (0xFF54, [0x74]), (0xFF55, [0x75]), (0xFF56, [0x76]),
  (0xFF57, [0x77]), (0xFF58, [0x78]), (0xFF59, [0x79]), (0xFF65, [0x30FB]), (0xFF76, [0x30AB]),
  (0xFF77, [0x30AD]), (0xFF7C, [0x30B7]), (0xFF82, [0x30C4]), (0xFF8A, [0x30CF]),
  (0xFF8B, [0x30D2]), (0xFF8D, [0x30D8]), (0xFF9E, [0x3099]), (0xFF9F, [0x309A]),
  (0xFFA0, [0x1160]), (0xFFA1, [0x1100]), (0xFFC2, [0x1161]), (0xFFE3, [0x20, 0x304]),
  (0xFFE6, [0x20A9]), (0x1109A, [0x11099, 0x110BA]), (0x1112E, [0x11131, 0x11127]),
  (0x1134B, [0x11347, 0x1133E]), (0x1134C, [0x11347, 0x11357]), (0x114BB, [0x114B9, 0x114BA]),
  (0x115BA, [0x115B8, 0x115AF]), (0x11938, [0x11935, 0x11930]), (0x1D15E, [0x1D157, 0x1D165]),
  (0x1D160, [0x1D158, 0x1D165, 0x1D16E]), (0x1D400, [0x41]), (0x1D4CD, [0x78]), (0x1D7CE, [0x30]),
  (0x1D7D8, [0x30]), (0x1D7FF, [0x39]), (0x1EE00, [0x627]), (0x1F100, [0x30, 0x2E]),
  (0x1F240, [0x3014, 0x672C, 0x3015]), (0x1FBF0, [0x30]), (0x2F800, [0x4E3D])]

/-- Primary composites: two code points and what they compose to. -/
def composites : Array (Nat × Nat × Nat) := #[
  (0x3C, 0x338, 0x226E), (0x3D, 0x338, 0x2260), (0x3E, 0x338, 0x226F), (0x41, 0x300, 0xC0),
  (0x41, 0x301, 0xC1), (0x41, 0x302, 0xC2), (0x41, 0x304, 0x100), (0x41, 0x306, 0x102),
  (0x41, 0x307, 0x226), (0x41, 0x308, 0xC4), (0x41, 0x30A, 0xC5), (0x41, 0x30C, 0x1CD),
  (0x41, 0x323, 0x1EA0), (0x42, 0x307, 0x1E02), (0x42, 0x323, 0x1E04), (0x43, 0x301, 0x106),
  (0x43, 0x302, 0x108), (0x43, 0x307, 0x10A), (0x43, 0x30C, 0x10C), (0x43, 0x327, 0xC7),
  (0x44, 0x307, 0x1E0A), (0x44, 0x30C, 0x10E), (0x44, 0x323, 0x1E0C), (0x44, 0x327, 0x1E10),
  (0x45, 0x300, 0xC8), (0x45, 0x301, 0xC9), (0x45, 0x302, 0xCA), (0x45, 0x304, 0x112),
  (0x45, 0x306, 0x114), (0x45, 0x307, 0x116), (0x45, 0x308, 0xCB), (0x45, 0x30C, 0x11A),
  (0x45, 0x323, 0x1EB8), (0x45, 0x327, 0x228), (0x46, 0x307, 0x1E1E), (0x47, 0x301, 0x1F4),
  (0x47, 0x302, 0x11C), (0x47, 0x304, 0x1E20), (0x47, 0x306, 0x11E), (0x47, 0x307, 0x120),
  (0x47, 0x30C, 0x1E6), (0x47, 0x327, 0x122), (0x48, 0x302, 0x124), (0x48, 0x307, 0x1E22),
  (0x48, 0x308, 0x1E26), (0x48, 0x30C, 0x21E), (0x48, 0x323, 0x1E24), (0x48, 0x327, 0x1E28),
  (0x49, 0x300, 0xCC), (0x49, 0x301, 0xCD), (0x49, 0x302, 0xCE), (0x49, 0x304, 0x12A),
  (0x49, 0x306, 0x12C), (0x49, 0x307, 0x130), (0x49, 0x308, 0xCF), (0x49, 0x30C, 0x1CF),
  (0x49, 0x323, 0x1ECA), (0x4A, 0x302, 0x134), (0x4B, 0x301, 0x1E30), (0x4B, 0x30C, 0x1E8),
  (0x4B, 0x323, 0x1E32), (0x4B, 0x327, 0x136), (0x4C, 0x301, 0x139), (0x4C, 0x30C, 0x13D),
  (0x4C, 0x323, 0x1E36), (0x4C, 0x327, 0x13B), (0x4D, 0x301, 0x1E3E), (0x4D, 0x307, 0x1E40),
  (0x4D, 0x323, 0x1E42), (0x4E, 0x300, 0x1F8), (0x4E, 0x301, 0x143), (0x4E, 0x307, 0x1E44),
  (0x4E, 0x30C, 0x147), (0x4E, 0x323, 0x1E46), (0x4E, 0x327, 0x145), (0x4F, 0x300, 0xD2),
  (0x4F, 0x301, 0xD3), (0x4F, 0x302, 0xD4), (0x4F, 0x304, 0x14C), (0x4F, 0x306, 0x14E),
  (0x4F, 0x307, 0x22E), (0x4F, 0x308, 0xD6), (0x4F, 0x30C, 0x1D1), (0x4F, 0x31B, 0x1A0),
  (0x4F, 0x323, 0x1ECC), (0x50, 0x301, 0x1E54), (0x50, 0x307, 0x1E56), (0x52, 0x301, 0x154),
  (0x52, 0x307, 0x1E58), (0x52, 0x30C, 0x158), (0x52, 0x323, 0x1E5A), (0x52, 0x327, 0x156),
  (0x53, 0x301, 0x15A), (0x53, 0x302, 0x15C), (0x53, 0x307, 0x1E60), (0x53, 0x30C, 0x160),
  (0x53, 0x323, 0x1E62), (0x53, 0x327, 0x15E), (0x54, 0x307, 0x1E6A), (0x54, 0x30C, 0x164),
  (0x54, 0x323, 0x1E6C), (0x54, 0x327, 0x162), (0x55, 0x300, 0xD9), (0x55, 0x301, 0xDA),
  (0x55, 0x302, 0xDB), (0x55, 0x304, 0x16A), (0x55, 0x306, 0x16C), (0x55, 0x308, 0xDC),
  (0x55, 0x30A, 0x16E), (0x55, 0x30C, 0x1D3), (0x55, 0x31B, 0x1AF), (0x55, 0x323, 0x1EE4),
  (0x56, 0x323, 0x1E7E), (0x57, 0x300, 0x1E80), (0x57, 0x301, 0x1E82), (0x57, 0x302, 0x174),
  (0x57, 0x307, 0x1E86), (0x57, 0x308, 0x1E84), (0x57, 0x323, 0x1E88), (0x58, 0x307, 0x1E8A),
  (0x58, 0x308, 0x1E8C), (0x59, 0x300, 0x1EF2), (0x59, 0x301, 0xDD), (0x59, 0x302, 0x176),
  (0x59, 0x304, 0x232), (0x59, 0x307, 0x1E8E), (0x59, 0x308, 0x178), (0x59, 0x323, 0x1EF4),
  (0x5A, 0x301, 0x179), (0x5A, 0x302, 0x1E90), (0x5A, 0x307, 0x17B), (0x5A, 0x30C, 0x17D),
  (0x5A, 0x323, 0x1E92), (0x61, 0x300, 0xE0), (0x61, 0x301, 0xE1), (0x61, 0x302, 0xE2),
  (0x61, 0x304, 0x101), (0x61, 0x306, 0x103), (0x61, 0x307, 0x227), (0x61, 0x308, 0xE4),
  (0x61, 0x30A, 0xE5), (0x61, 0x30C, 0x1CE), (0x61, 0x323, 0x1EA1), (0x62, 0x307, 0x1E03),
  (0x62, 0x323, 0x1E05), (0x63, 0x301, 0x107), (0x63, 0x302, 0x109), (0x63, 0x307, 0x10B),
  (0x63, 0x30C, 0x10D), (0x63, 0x327, 0xE7), (0x64, 0x307, 0x1E0B), (0x64, 0x30C, 0x10F),
  (0x64, 0x323, 0x1E0D), (0x64, 0x327, 0x1E11), (0x65, 0x300, 0xE8), (0x65, 0x301, 0xE9),
  (0x65, 0x302, 0xEA), (0x65, 0x304, 0x113), (0x65, 0x306, 0x115), (0x65, 0x307, 0x117),
  (0x65, 0x308, 0xEB), (0x65, 0x30C, 0x11B), (0x65, 0x323, 0x1EB9), (0x65, 0x327, 0x229),
  (0x66, 0x307, 0x1E1F), (0x67, 0x301, 0x1F5), (0x67, 0x302, 0x11D), (0x67, 0x304, 0x1E21),
  (0x67, 0x306, 0x11F), (0x67, 0x307, 0x121), (0x67, 0x30C, 0x1E7), (0x67, 0x327, 0x123),
  (0x68, 0x302, 0x125), (0x68, 0x307, 0x1E23), (0x68, 0x308, 0x1E27), (0x68, 0x30C, 0x21F),
  (0x68, 0x323, 0x1E25), (0x68, 0x327, 0x1E29), (0x69, 0x300, 0xEC), (0x69, 0x301, 0xED),
  (0x69, 0x302, 0xEE), (0x69, 0x304, 0x12B), (0x69, 0x306, 0x12D), (0x69, 0x308, 0xEF),
  (0x69, 0x30C, 0x1D0), (0x69, 0x323, 0x1ECB), (0x6A, 0x302, 0x135), (0x6A, 0x30C, 0x1F0),
  (0x6B, 0x301, 0x1E31), (0x6B, 0x30C, 0x1E9), (0x6B, 0x323, 0x1E33), (0x6B, 0x327, 0x137),
  (0x6C, 0x301, 0x13A), (0x6C, 0x30C, 0x13E), (0x6C, 0x323, 0x1E37), (0x6C, 0x327, 0x13C),
  (0x6D, 0x301, 0x1E3F), (0x6D, 0x307, 0x1E41), (0x6D, 0x323, 0x1E43), (0x6E, 0x300, 0x1F9),
  (0x6E, 0x301, 0x144), (0x6E, 0x307, 0x1E45), (0x6E, 0x30C, 0x148), (0x6E, 0x323, 0x1E47),
  (0x6E, 0x327, 0x146), (0x6F, 0x300, 0xF2), (0x6F, 0x301, 0xF3), (0x6F, 0x302, 0xF4),
  (0x6F, 0x304, 0x14D), (0x6F, 0x306, 0x14F), (0x6F, 0x307, 0x22F), (0x6F, 0x308, 0xF6),
  (0x6F, 0x30C, 0x1D2), (0x6F, 0x31B, 0x1A1), (0x6F, 0x323, 0x1ECD), (0x70, 0x301, 0x1E55),
  (0x70, 0x307, 0x1E57), (0x72, 0x301, 0x155), (0x72, 0x307, 0x1E59), (0x72, 0x30C, 0x159),
  (0x72, 0x323, 0x1E5B), (0x72, 0x327, 0x157), (0x73, 0x301, 0x15B), (0x73, 0x302, 0x15D),
  (0x73, 0x307, 0x1E61), (0x73, 0x30C, 0x161), (0x73, 0x323, 0x1E63), (0x73, 0x327, 0x15F),
  (0x74, 0x307, 0x1E6B), (0x74, 0x308, 0x1E97), (0x74, 0x30C, 0x165), (0x74, 0x323, 0x1E6D),
  (0x74, 0x327, 0x163), (0x75, 0x300, 0xF9), (0x75, 0x301, 0xFA), (0x75, 0x302, 0xFB),
  (0x75, 0x304, 0x16B), (0x75, 0x306, 0x16D), (0x75, 0x308, 0xFC), (0x75, 0x30A, 0x16F),
  (0x75, 0x30C, 0x1D4), (0x75, 0x31B, 0x1B0), (0x75, 0x323, 0x1EE5), (0x76, 0x323, 0x1E7F),
  (0x77, 0x300, 0x1E81), (0x77, 0x301, 0x1E83), (0x77, 0x302, 0x175), (0x77, 0x307, 0x1E87),
  (0x77, 0x308, 0x1E85), (0x77, 0x30A, 0x1E98), (0x77, 0x323, 0x1E89), (0x78, 0x307, 0x1E8B),
  (0x78, 0x308, 0x1E8D), (0x79, 0x300, 0x1EF3), (0x79, 0x301, 0xFD), (0x79, 0x302, 0x177),
  (0x79, 0x304, 0x233), (0x79, 0x307, 0x1E8F), (0x79, 0x308, 0xFF), (0x79, 0x30A, 0x1E99),
  (0x79, 0x323, 0x1EF5), (0x7A, 0x301, 0x17A), (0x7A, 0x302, 0x1E91), (0x7A, 0x307, 0x17C),
  (0x7A, 0x30C, 0x17E), (0x7A, 0x323, 0x1E93), (0xA8, 0x300, 0x1FED), (0xA8, 0x301, 0x385),
  (0xC2, 0x300, 0x1EA6), (0xC2, 0x301, 0x1EA4), (0xC4, 0x304, 0x1DE), (0xC5, 0x301, 0x1FA),
  (0xC7, 0x301, 0x1E08), (0xCA, 0x300, 0x1EC0), (0xCA, 0x301, 0x1EBE), (0xCF, 0x301, 0x1E2E),
  (0xD4, 0x300, 0x1ED2), (0xD4, 0x301, 0x1ED0), (0xD6, 0x304, 0x22A), (0xDC, 0x300, 0x1DB),
  (0xDC, 0x301, 0x1D7), (0xDC, 0x304, 0x1D5), (0xDC, 0x30C, 0x1D9), (0xE2, 0x300, 0x1EA7),
  (0xE2, 0x301, 0x1EA5), (0xE4, 0x304, 0x1DF), (0xE5, 0x301, 0x1FB), (0xE7, 0x301, 0x1E09),
  (0xEA, 0x300, 0x1EC1), (0xEA, 0x301, 0x1EBF), (0xEF, 0x301, 0x1E2F), (0xF4, 0x300, 0x1ED3),
  (0xF4, 0x301, 0x1ED1), (0xF6, 0x304, 0x22B), (0xFC, 0x300, 0x1DC), (0xFC, 0x301, 0x1D8),
  (0xFC, 0x304, 0x1D6), (0xFC, 0x30C, 0x1DA), (0x102, 0x300, 0x1EB0), (0x102, 0x301, 0x1EAE),
  (0x103, 0x300, 0x1EB1), (0x103, 0x301, 0x1EAF), (0x112, 0x300, 0x1E14), (0x112, 0x301, 0x1E16),
  (0x113, 0x300, 0x1E15), (0x113, 0x301, 0x1E17), (0x14C, 0x300, 0x1E50), (0x14C, 0x301, 0x1E52),
  (0x14D, 0x300, 0x1E51), (0x14D, 0x301, 0x1E53), (0x15A, 0x307, 0x1E64), (0x15B, 0x307, 0x1E65),
  (0x160, 0x307, 0x1E66), (0x161, 0x307, 0x1E67), (0x16A, 0x308, 0x1E7A), (0x16B, 0x308, 0x1E7B),
  (0x17F, 0x307, 0x1E9B), (0x1A0, 0x300, 0x1EDC), (0x1A0, 0x301, 0x1EDA), (0x1A0, 0x323, 0x1EE2),
  (0x1A1, 0x300, 0x1EDD), (0x1A1, 0x301, 0x1EDB), (0x1A1, 0x323, 0x1EE3), (0x1AF, 0x300, 0x1EEA),
  (0x1AF, 0x301, 0x1EE8), (0x1AF, 0x323, 0x1EF0), (0x1B0, 0x300, 0x1EEB), (0x1B0, 0x301, 0x1EE9),
  (0x1B0, 0x323, 0x1EF1), (0x1B7, 0x30C, 0x1EE), (0x226, 0x304, 0x1E0), (0x227, 0x304, 0x1E1),
  (0x228, 0x306, 0x1E1C), (0x229, 0x306, 0x1E1D), (0x22E, 0x304, 0x230), (0x22F, 0x304, 0x231),
  (0x3A5, 0x300, 0x1FEA), (0x3A5, 0x301, 0x38E), (0x3A5, 0x304, 0x1FE9), (0x3A5, 0x306, 0x1FE8),
  (0x3A5, 0x308, 0x3AB), (0x3A9, 0x300, 0x1FFA), (0x3A9, 0x301, 0x38F), (0x3A9, 0x313, 0x1F68),
  (0x3A9, 0x345, 0x1FFC), (0x3AC, 0x345, 0x1FB4), (0x3B1, 0x300, 0x1F70), (0x3B1, 0x301, 0x3AC),
  (0x3B1, 0x304, 0x1FB1), (0x3B1, 0x306, 0x1FB0), (0x3B1, 0x313, 0x1F00), (0x3B1, 0x345, 0x1FB3),
  (0x3B9, 0x300, 0x1F76), (0x3B9, 0x301, 0x3AF), (0x3B9, 0x304, 0x1FD1), (0x3B9, 0x306, 0x1FD0),
  (0x3B9, 0x308, 0x3CA), (0x3B9, 0x313, 0x1F30), (0x3C9, 0x300, 0x1F7C), (0x3C9, 0x301, 0x3CE),
  (0x3C9, 0x313, 0x1F60), (0x3C9, 0x345, 0x1FF3), (0x3CA, 0x300, 0x1FD2), (0x3CA, 0x301, 0x390),
  (0x3CE, 0x345, 0x1FF4), (0x3D2, 0x301, 0x3D3), (0x3D2, 0x308, 0x3D4), (0x627, 0x653, 0x622),
  (0x627, 0x654, 0x623), (0x627, 0x655, 0x625), (0x648, 0x654, 0x624), (0x64A, 0x654, 0x626),
  (0x928, 0x93C, 0x929), (0x9C7, 0x9BE, 0x9CB), (0x9C7, 0x9D7, 0x9CC), (0xBC6, 0xBBE, 0xBCA),
  (0xCC6, 0xCC2, 0xCCA), (0xCC6, 0xCD5, 0xCC7), (0xCCA, 0xCD5, 0xCCB), (0xDD9, 0xDCA, 0xDDA),
  (0xDD9, 0xDCF, 0xDDC), (0xDDC, 0xDCA, 0xDDD), (0x1025, 0x102E, 0x1026), (0x1B05, 0x1B35, 0x1B06),
  (0x1E36, 0x304, 0x1E38), (0x1E37, 0x304, 0x1E39), (0x1E5A, 0x304, 0x1E5C),
  (0x1E5B, 0x304, 0x1E5D), (0x1E62, 0x307, 0x1E68), (0x1E63, 0x307, 0x1E69),
  (0x1EA0, 0x302, 0x1EAC), (0x1EA0, 0x306, 0x1EB6), (0x1EA1, 0x302, 0x1EAD),
  (0x1EA1, 0x306, 0x1EB7), (0x1EB8, 0x302, 0x1EC6), (0x1EB9, 0x302, 0x1EC7),
  (0x1ECC, 0x302, 0x1ED8), (0x1ECD, 0x302, 0x1ED9), (0x1F00, 0x300, 0x1F02),
  (0x1F00, 0x301, 0x1F04), (0x1F00, 0x345, 0x1F80), (0x1F02, 0x345, 0x1F82),
  (0x1F04, 0x345, 0x1F84), (0x1F30, 0x300, 0x1F32), (0x1F30, 0x301, 0x1F34),
  (0x1F60, 0x300, 0x1F62), (0x1F60, 0x301, 0x1F64), (0x1F60, 0x345, 0x1FA0),
  (0x1F62, 0x345, 0x1FA2), (0x1F64, 0x345, 0x1FA4), (0x1F68, 0x300, 0x1F6A),
  (0x1F68, 0x301, 0x1F6C), (0x1F68, 0x345, 0x1FA8), (0x1F6A, 0x345, 0x1FAA),
  (0x1F6C, 0x345, 0x1FAC), (0x1F70, 0x345, 0x1FB2), (0x1F7C, 0x345, 0x1FF2),
  (0x304B, 0x3099, 0x304C), (0x306F, 0x3099, 0x3070), (0x306F, 0x309A, 0x3071),
  (0x309D, 0x3099, 0x309E), (0x30AB, 0x3099, 0x30AC), (0x30AD, 0x3099, 0x30AE),
  (0x30B3, 0x3099, 0x30B4), (0x30B7, 0x3099, 0x30B8), (0x30C4, 0x3099, 0x30C5),
  (0x30C8, 0x3099, 0x30C9), (0x30CF, 0x3099, 0x30D0), (0x30CF, 0x309A, 0x30D1),
  (0x30D2, 0x3099, 0x30D3), (0x30D2, 0x309A, 0x30D4), (0x30D8, 0x3099, 0x30D9),
  (0x30D8, 0x309A, 0x30DA), (0x11099, 0x110BA, 0x1109A), (0x11131, 0x11127, 0x1112E),
  (0x11347, 0x1133E, 0x1134B), (0x11347, 0x11357, 0x1134C), (0x114B9, 0x114BA, 0x114BB),
  (0x115B8, 0x115AF, 0x115BA), (0x11935, 0x11930, 0x11938)]

/-- The number of a pair of code points, in the order of `composites`. -/
def pairKey (a b : Nat) : Nat := a * 0x110000 + b

def compositeTable : Array (Nat × Nat) :=
  composites.map fun (a, b, c) => (pairKey a b, c)

/-- The look-ups of the tables. -/
def CharData.standard : CharData where
  combiningClass c := (Lookup.find? combiningClasses c.toNat).getD 0
  decomposition c :=
    match Lookup.find? decompositions c.toNat with
    | some parts => parts.map Char.ofNat
    | none => [c]
  composite? a b := (Lookup.find? compositeTable (pairKey a.toNat b.toNat)).map Char.ofNat
  quickCheck c := !Lookup.covers quickDoubts c.toNat
  idStart c := Hangul.isSyllable c || Lookup.covers identifierStarts c.toNat
  idContinue c :=
    Hangul.isSyllable c || Lookup.covers identifierStarts c.toNat ||
      Lookup.covers identifierExtras c.toNat

end FirSyntax.Unicode
