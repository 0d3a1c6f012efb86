import LoopNest.Text.PointTable

/-!
# Classes of combining marks

Marks of different classes may stand in any order behind their letter; marks of one class may not.
-/

namespace LoopNest
namespace Text

/-- The marks of identifiers, each run with its class. -/
def combiningTable : PointTable := .ofLines
  [ "300+15:E6 315:E8 316+4:DC 31A:E8 31B:D8 31C+5:DC 321+2:CA 323+4:DC 327+2:CA 329+B:DC",
    "334+5:1 339+4:DC 33D+8:E6 345:F0 346:E6 347+3:DC 34A+3:E6 34D+2:DC 350+3:E6 353+4:DC",
    "357:E6 358:E8 359+2:DC 35B:E6 35C:E9 35D+2:EA 35F:E9 360+2:EA 362:E9 363+D:E6 483+5:E6",
    "591:DC 592+4:E6 596:DC 597+3:E6 59A:DE 59B:DC 59C+6:E6 5A2+6:DC 5A8+2:E6 5AA:DC 5AB+2:E6",
    "5AD:DE 5AE:E4 5AF:E6 5B0:A 5B1:B 5B2:C 5B3:D 5B4:E 5B5:F 5B6:10 5B7:11 5B8:12 5B9+2:13",
    "5BB:14 5BC:15 5BD:16 5BF:17 5C1:18 5C2:19 5C4:E6 5C5:DC 5C7:12 610+8:E6 618:1E 619:1F",
    "61A:20 64B:1B 64C:1C 64D:1D 64E:1E 64F:1F 650:20 651:21 652:22 653+2:E6 655+2:DC",
    "657+5:E6 65C:DC 65D+2:E6 65F:DC 670:23 6D6+7:E6 6DF+4:E6 6E3:DC 6E4:E6 6E7+2:E6 6EA:DC",
    "6EB+2:E6 6ED:DC 711:24 730:E6 731:DC 732+2:E6 734:DC 735+2:E6 737+3:DC 73A:E6 73B+2:DC",
    "73D:E6 73E:DC 73F+3:E6 742:DC 743:E6 744:DC 745:E6 746:DC 747:E6 748:DC 749+2:E6",
    "7EB+7:E6 7F2:DC 7F3:E6 7FD:DC 816+4:E6 81B+9:E6 825+3:E6 829+5:E6 859+3:DC 898:E6",
    "899+3:DC 89C+4:E6 8CA+5:E6 8CF+5:DC 8D4+E:E6 8E3:DC 8E4+2:E6 8E6:DC 8E7+2:E6 8E9:DC",
    "8EA+3:E6 8ED+3:DC 8F0:1B 8F1:1C 8F2:1D 8F3+3:E6 8F6:DC 8F7+2:E6 8F9+2:DC 8FB+5:E6 93C:7",
    "94D:9 951:E6 952:DC 953+2:E6 9BC:7 9CD:9 9FE:E6 A3C:7 A4D:9 ABC:7 ACD:9 B3C:7 B4D:9",
    "BCD:9 C3C:7 C4D:9 C55:54 C56:5B CBC:7 CCD:9 D3B+2:9 D4D:9 DCA:9 E38+2:67 E3A:9 E48+4:6B",
    "EB8+2:76 EBA:9 EC8+4:7A F18+2:DC F35:DC F37:DC F39:D8 F71:81 F72:82 F74:84 F7A+4:82",
    "F80:82 F82+2:E6 F84:9 F86+2:E6 FC6:DC 1037:7 1039+2:9 108D:DC 135D+3:E6 1714+2:9 1734:9",
    "17D2:9 17DD:E6 18A9:E4 1939:DE 193A:E6 193B:DC 1A17:E6 1A18:DC 1A60:9 1A75+8:E6 1A7F:DC",
    "1AB0+5:E6 1AB5+6:DC 1ABB+2:E6 1ABD:DC 1ABF+2:DC 1AC1+2:E6 1AC3+2:DC 1AC5+5:E6 1ACA:DC",
    "1ACB+4:E6 1B34:7 1B44:9 1B6B:E6 1B6C:DC 1B6D+7:E6 1BAA+2:9 1BE6:7 1BF2+2:9 1C37:7",
    "1CD0+3:E6 1CD4:1 1CD5+5:DC 1CDA+2:E6 1CDC+4:DC 1CE0:E6 1CE2+7:1 1CED:DC 1CF4:E6",
    "1CF8+2:E6 1DC0+2:E6 1DC2:DC 1DC3+7:E6 1DCA:DC 1DCB+2:E6 1DCD:EA 1DCE:D6 1DCF:DC 1DD0:CA",
    "1DD1+25:E6 1DF6:E8 1DF7+2:E4 1DF9:DC 1DFA:DA 1DFB:E6 1DFC:E9 1DFD:DC 1DFE:E6 1DFF:DC",
    "20D0+2:E6 20D2+2:1 20D4+4:E6 20D8+3:1 20DB+2:E6 20E1:E6 20E5+2:1 20E7:E6 20E8:DC 20E9:E6",
    "20EA+2:1 20EC+4:DC 20F0:E6 2CEF+3:E6 2D7F:9 2DE0+20:E6 302A:DA 302B:E4 302C:E8 302D:DE",
    "302E+2:E0 3099+2:8 A66F:E6 A674+A:E6 A69E+2:E6 A6F0+2:E6 A806:9 A82C:9 A8C4:9 A8E0+12:E6",
    "A92B+3:DC A953:9 A9B3:7 A9C0:9 AAB0:E6 AAB2+2:E6 AAB4:DC AAB7+2:E6 AABE+2:E6 AAC1:E6",
    "AAF6:9 ABED:9 FB1E:1A FE20+7:E6 FE27+7:DC FE2E+2:E6 101FD:DC 102E0:DC 10376+5:E6",
    "10A0D:DC 10A0F:E6 10A38:E6 10A39:1 10A3A:DC 10A3F:9 10AE5:E6 10AE6:DC 10D24+4:E6",
    "10EAB+2:E6 10F46+2:DC 10F48+3:E6 10F4B:DC 10F4C:E6 10F4D+4:DC 10F82:E6 10F83:DC 10F84:E6",
    "10F85:DC 11046:9 11070:9 1107F:9 110B9:9 110BA:7 11100+3:E6 11133+2:9 11173:7 111C0:9",
    "111CA:7 11235:9 11236:7 112E9:7 112EA:9 1133B+2:7 1134D:9 11366+7:E6 11370+5:E6 11442:9",
    "11446:7 1145E:E6 114C2:9 114C3:7 115BF:9 115C0:7 1163F:9 116B6:9 116B7:7 1172B:9 11839:9",
    "1183A:7 1193D+2:9 11943:7 119E0:9 11A34:9 11A47:9 11A99:9 11C3F:9 11D42:7 11D44+2:9",
    "11D97:9 16AF0+5:1 16B30+7:E6 16FF0+2:6 1BC9E:1 1D165+2:D8 1D167+3:1 1D16D:E2 1D16E+5:D8",
    "1D17B+8:DC 1D185+5:E6 1D18A+2:DC 1D1AA+4:E6 1D242+3:E6 1E000+7:E6 1E008+11:E6 1E01B+7:E6",
    "1E023+2:E6 1E026+5:E6 1E130+7:E6 1E2AE:E6 1E2EC+4:E6 1E8D0+7:DC 1E944+6:E6 1E94A:7" ]

/-- The class of a mark; zero for what is no such mark. -/
def combiningClass (point : Nat) : Nat :=
  match (combiningTable.find? point).map PointRun.values with
  | some [k] => k
  | _ => 0

end Text
end LoopNest
