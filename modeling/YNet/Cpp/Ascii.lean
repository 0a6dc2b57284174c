import Mathlib

-- The characters that the modelled code compares single bytes with.
namespace Ascii

abbrev nul       : UInt8 := 0x00
abbrev tab       : UInt8 := 0x09
abbrev lf        : UInt8 := 0x0A
abbrev cr        : UInt8 := 0x0D
abbrev space     : UInt8 := 0x20
abbrev quote     : UInt8 := 0x22
abbrev percent   : UInt8 := 0x25
abbrev ampersand : UInt8 := 0x26
abbrev apos      : UInt8 := 0x27
abbrev plus      : UInt8 := 0x2B
abbrev comma     : UInt8 := 0x2C
abbrev minus     : UInt8 := 0x2D
abbrev dot       : UInt8 := 0x2E
abbrev slash     : UInt8 := 0x2F
abbrev colon     : UInt8 := 0x3A
abbrev semicolon : UInt8 := 0x3B
abbrev less      : UInt8 := 0x3C
abbrev equals    : UInt8 := 0x3D
abbrev greater   : UInt8 := 0x3E
abbrev question  : UInt8 := 0x3F
abbrev backslash : UInt8 := 0x5C

abbrev openBracket  : UInt8 := 0x5B
abbrev closeBracket : UInt8 := 0x5D
abbrev openBrace    : UInt8 := 0x7B
abbrev closeBrace   : UInt8 := 0x7D

end Ascii
