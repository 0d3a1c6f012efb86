import LoopNest.Text.Word

/-!
# Identifiers of generated code

An identifier starts with a letter or an underscore and goes on with letters, digits, underscores
and combining marks.  The reserved words of generated code look like identifiers and are none.
-/

namespace LoopNest
namespace Text

/-- Word characters from code point 128 upwards that may not start an identifier: digits and other
numerics, and a few letters. -/
def laterRanges : Ranges := .ofLines
  [ "B2-B3 B9 BC-BE 37A 660-669 6F0-6F9 7C0-7C9 966-96F 9E6-9EF 9F4-9F9 A66-A6F AE6-AEF B66-B6F",
    "B72-B77 BE6-BF2 C66-C6F C78-C7E CE6-CEF D58-D5E D66-D78 DE6-DEF E33 E50-E59 EB3 ED0-ED9",
    "F20-F33 1040-1049 1090-1099 1369-137C 17E0-17E9 17F0-17F9 1810-1819 1946-194F 19D0-19DA",
    "1A80-1A89 1A90-1A99 1B50-1B59 1BB0-1BB9 1C40-1C49 1C50-1C59 2070 2074-2079 2080-2089",
    "2150-215F 2189 2460-249B 24EA-24FF 2776-2793 2CFD 2E2F 3192-3195 3220-3229 3248-324F",
    "3251-325F 3280-3289 32B1-32BF A620-A629 A830-A835 A8D0-A8D9 A900-A909 A9D0-A9D9 A9F0-A9F9",
    "AA50-AA59 ABF0-ABF9 FC5E-FC63 FDFA-FDFB FE70 FE72 FE74 FE76 FE78 FE7A FE7C FE7E FF10-FF19",
    "FF9E-FF9F 10107-10133 10175-10178 1018A-1018B 102E1-102FB 10320-10323 104A0-104A9",
    "10858-1085F 10879-1087F 108A7-108AF 108FB-108FF 10916-1091B 109BC-109BD 109C0-109CF",
    "109D2-109FF 10A40-10A48 10A7D-10A7E 10A9D-10A9F 10AEB-10AEF 10B58-10B5F 10B78-10B7F",
    "10BA9-10BAF 10CFA-10CFF 10D30-10D39 10E60-10E7E 10F1D-10F26 10F51-10F54 10FC5-10FCB",
    "11052-1106F 110F0-110F9 11136-1113F 111D0-111D9 111E1-111F4 112F0-112F9 11450-11459",
    "114D0-114D9 11650-11659 116C0-116C9 11730-1173B 118E0-118F2 11950-11959 11C50-11C6C",
    "11D50-11D59 11DA0-11DA9 11FC0-11FD4 16A60-16A69 16AC0-16AC9 16B50-16B59 16B5B-16B61",
    "16E80-16E96 1D2E0-1D2F3 1D360-1D378 1D7CE-1D7FF 1E140-1E149 1E2F0-1E2F9 1E8C7-1E8CF",
    "1E950-1E959 1EC71-1ECAB 1ECAD-1ECAF 1ECB1-1ECB4 1ED01-1ED2D 1ED2F-1ED3D 1F100-1F10C",
    "1FBF0-1FBF9"]

/-- The code point starts an identifier: that of a word character, or one of four others. -/
def startsIdentifier (point : Nat) : Bool :=
  wordRanges.covers point && !laterRanges.covers point ||
    Ranges.covers [(0x1885, 0x1886), (0x2118, 0x2118), (0x212E, 0x212E)] point

/-- Characters from code point 128 upwards that may stand in an identifier, but not first. -/
def innerRanges : Ranges := .ofLines
  [ "B7 300-36F 387 483-487 591-5BD 5BF 5C1-5C2 5C4-5C5 5C7 610-61A 64B-669 670 6D6-6DC 6DF-6E4",
    "6E7-6E8 6EA-6ED 6F0-6F9 711 730-74A 7A6-7B0 7C0-7C9 7EB-7F3 7FD 816-819 81B-823 825-827",
    "829-82D 859-85B 898-89F 8CA-8E1 8E3-903 93A-93C 93E-94F 951-957 962-963 966-96F 981-983 9BC",
    "9BE-9C4 9C7-9C8 9CB-9CD 9D7 9E2-9E3 9E6-9EF 9FE A01-A03 A3C A3E-A42 A47-A48 A4B-A4D A51",
    "A66-A71 A75 A81-A83 ABC ABE-AC5 AC7-AC9 ACB-ACD AE2-AE3 AE6-AEF AFA-AFF B01-B03 B3C B3E-B44",
    "B47-B48 B4B-B4D B55-B57 B62-B63 B66-B6F B82 BBE-BC2 BC6-BC8 BCA-BCD BD7 BE6-BEF C00-C04 C3C",
    "C3E-C44 C46-C48 C4A-C4D C55-C56 C62-C63 C66-C6F C81-C83 CBC CBE-CC4 CC6-CC8 CCA-CCD CD5-CD6",
    "CE2-CE3 CE6-CEF D00-D03 D3B-D3C D3E-D44 D46-D48 D4A-D4D D57 D62-D63 D66-D6F D81-D83 DCA",
    "DCF-DD4 DD6 DD8-DDF DE6-DEF DF2-DF3 E31 E33-E3A E47-E4E E50-E59 EB1 EB3-EBC EC8-ECD ED0-ED9",
    "F18-F19 F20-F29 F35 F37 F39 F3E-F3F F71-F84 F86-F87 F8D-F97 F99-FBC FC6 102B-103E 1040-1049",
    "1056-1059 105E-1060 1062-1064 1067-106D 1071-1074 1082-108D 108F-109D 135D-135F 1369-1371",
    "1712-1715 1732-1734 1752-1753 1772-1773 17B4-17D3 17DD 17E0-17E9 180B-180D 180F-1819 18A9",
    "1920-192B 1930-193B 1946-194F 19D0-19DA 1A17-1A1B 1A55-1A5E 1A60-1A7C 1A7F-1A89 1A90-1A99",
    "1AB0-1ABD 1ABF-1ACE 1B00-1B04 1B34-1B44 1B50-1B59 1B6B-1B73 1B80-1B82 1BA1-1BAD 1BB0-1BB9",
    "1BE6-1BF3 1C24-1C37 1C40-1C49 1C50-1C59 1CD0-1CD2 1CD4-1CE8 1CED 1CF4 1CF7-1CF9 1DC0-1DFF",
    "203F-2040 2054 20D0-20DC 20E1 20E5-20F0 2CEF-2CF1 2D7F 2DE0-2DFF 302A-302F 3099-309A",
    "A620-A629 A66F A674-A67D A69E-A69F A6F0-A6F1 A802 A806 A80B A823-A827 A82C A880-A881",
    "A8B4-A8C5 A8D0-A8D9 A8E0-A8F1 A8FF-A909 A926-A92D A947-A953 A980-A983 A9B3-A9C0 A9D0-A9D9",
    "A9E5 A9F0-A9F9 AA29-AA36 AA43 AA4C-AA4D AA50-AA59 AA7B-AA7D AAB0 AAB2-AAB4 AAB7-AAB8",
    "AABE-AABF AAC1 AAEB-AAEF AAF5-AAF6 ABE3-ABEA ABEC-ABED ABF0-ABF9 FB1E FE00-FE0F FE20-FE2F",
    "FE33-FE34 FE4D-FE4F FF10-FF19 FF3F FF9E-FF9F 101FD 102E0 10376-1037A 104A0-104A9 10A01-10A03",
    "10A05-10A06 10A0C-10A0F 10A38-10A3A 10A3F 10AE5-10AE6 10D24-10D27 10D30-10D39 10EAB-10EAC",
    "10F46-10F50 10F82-10F85 11000-11002 11038-11046 11066-11070 11073-11074 1107F-11082",
    "110B0-110BA 110C2 110F0-110F9 11100-11102 11127-11134 11136-1113F 11145-11146 11173",
    "11180-11182 111B3-111C0 111C9-111CC 111CE-111D9 1122C-11237 1123E 112DF-112EA 112F0-112F9",
    "11300-11303 1133B-1133C 1133E-11344 11347-11348 1134B-1134D 11357 11362-11363 11366-1136C",
    "11370-11374 11435-11446 11450-11459 1145E 114B0-114C3 114D0-114D9 115AF-115B5 115B8-115C0",
    "115DC-115DD 11630-11640 11650-11659 116AB-116B7 116C0-116C9 1171D-1172B 11730-11739",
    "1182C-1183A 118E0-118E9 11930-11935 11937-11938 1193B-1193E 11940 11942-11943 11950-11959",
    "119D1-119D7 119DA-119E0 119E4 11A01-11A0A 11A33-11A39 11A3B-11A3E 11A47 11A51-11A5B",
    "11A8A-11A99 11C2F-11C36 11C38-11C3F 11C50-11C59 11C92-11CA7 11CA9-11CB6 11D31-11D36 11D3A",
    "11D3C-11D3D 11D3F-11D45 11D47 11D50-11D59 11D8A-11D8E 11D90-11D91 11D93-11D97 11DA0-11DA9",
    "11EF3-11EF6 16A60-16A69 16AC0-16AC9 16AF0-16AF4 16B30-16B36 16B50-16B59 16F4F 16F51-16F87",
    "16F8F-16F92 16FE4 16FF0-16FF1 1BC9D-1BC9E 1CF00-1CF2D 1CF30-1CF46 1D165-1D169 1D16D-1D172",
    "1D17B-1D182 1D185-1D18B 1D1AA-1D1AD 1D242-1D244 1D7CE-1D7FF 1DA00-1DA36 1DA3B-1DA6C 1DA75",
    "1DA84 1DA9B-1DA9F 1DAA1-1DAAF 1E000-1E006 1E008-1E018 1E01B-1E021 1E023-1E024 1E026-1E02A",
    "1E130-1E136 1E140-1E149 1E2AE 1E2EC-1E2F9 1E8D0-1E8D6 1E944-1E94A 1E950-1E959 1FBF0-1FBF9",
    "E0100-E01EF"]

/-- The character may start an identifier. -/
def isInitial (c : Char) : Bool :=
  c.isAlpha || c = '_' || (128 ≤ c.toNat && startsIdentifier c.toNat)

/-- The character may stand after the first one of an identifier. -/
def isInner (c : Char) : Bool :=
  isInitial c || c.isDigit || (128 ≤ c.toNat && innerRanges.covers c.toNat)

/-- The words that generated code keeps for itself. -/
def reservedWords : List String :=
  ["False", "None", "True", "and", "as", "assert", "async", "await", "break", "class", "continue",
    "def", "del", "elif", "else", "except", "finally", "for", "from", "global", "if", "import",
    "in", "is", "lambda", "nonlocal", "not", "or", "pass", "raise", "return", "try", "while",
    "with", "yield"]

/-- The text has the shape of an identifier. -/
def hasIdentifierShape (text : String) : Bool :=
  match text.toList with
  | [] => false
  | c :: rest => isInitial c && rest.all isInner

/-- The text is an identifier: it has the shape of one and is not reserved. -/
def isIdentifier (text : String) : Bool :=
  hasIdentifierShape text && !reservedWords.contains text

end Text
end LoopNest
