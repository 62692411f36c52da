import Peephole.Text.Runs

/-!
# Characters that print

`isPrintable` tells the characters that show as themselves from those that do not: controls, format
characters, surrogates, private use, unassigned code points, and every space but U+0020.  Below U+0080
the rule is the ASCII one; above it, `hiddenRuns` has the runs of code points that do not print.
-/

namespace Peephole.Text

/-- The runs of code points above U+007F that do not print. -/
def hiddenRuns : List Nat := runLengths [
  "°Q<1˺2647111D1ƽ1V2b231g8K46AF1ð1`2k2\x95>k2a2?1L211;5O9z1Ñ18222F1711342922248142152I2316422F17121212211542233174117",
  "A:319131F1712152:131321?42<771318222F1712152922237342152B:216331432111232333<4533142161>E5=131G1@291314721321242:7F",
  "131G1:152913147262142:12==131c13164@2J131B3H191127314611186:23<j4MU211151H111G2511162:24Px1T4W1T1?1=Uö11512Ʃ1427111",
  "42Y142Q142711142?1i142s2P3J6\x86262ʰ1L3\x897F9H9D<=1312<\x8e2:6:6>1;6\x897[5v:O1<4<413Z25;\\4J6;3n2q1M2;6:6>2Oa\x7d",
  "3_1¤8l3?3l7[2;8[5Ɇ262V26281111111O2e1?1>261C2319AH8_A22K1=3Q?Q?¼4ˇI;E\u07442P1ƍ5]11512h72>H97171717171717171®RJ1",
  "\x89<ĆJ<5o1\x862\x975[1\x8e1\x84<_1\u729d3g9ƌDè8û521115Hk3:6h8v8<6¤;N3~1;4Q1g9>2:2\x97HL:6262697171l4®2:6\u2bd4<G4a",
  "\u2134ƞ2\x9aV7<55J151112121\xad@ǭ2f71PZ6c1C14451·4î362626233717=22<1J1C121?2>R«534]3\x881=31_^²M3a?L4T9N5[5N1U4>ZÎ2",
  ":6T4T4X8d;<1?17121;1?1712sŧ9F:8H61Z19u6211\\12312G1x89`C125Q3K51ph4D2b1258131M234:797pPW4<9f3M2K5J74<7\x80ygc=c7^8:",
  "ŖO1Z1322~X8ZFJVLDG9~4T9n15=I7:6e1B8W9\x901D;B1\\q711141?1;6k5:6418222F1712151:22232161572735»\x8c15Nx8:Öf2VRu;:6=Cj",
  "6:fK2?4Gél\x94\x83<82128121N122<9:v82^2;Kx8\x83=yķ91]1>:M3P2F1>y7121\\3112198:66121U12167:ŦIç1?b=\u03cb\x96\x9f15;ô",
  "\u0a7c\x93=\u045f\u1001ɷ\u21e9ɩ7O1:4\x811:6N26:v::171E5Cˠ\x8b\x95\x7b4i7Ap5;2>\u18288\u0506Z9\u2317417121œ]3A48Ƽ",
  "\u0934\x9b5=397:24\u1290^2G9¤lĦ:W2z8\xa0EvÊD<\x879I·\x851w122122241<11171q1428171L141511371Ƅ2Ŕ2ˮ?51?\u0480Ođ71A2712",
  "15ą]3>2:42ŰOAj51\u0510714121?1õ2@Y|4:42\u0341t|mò41K1211211:141111614111111312112111111111121124171414111:1A53151Ad",
  "2ľ\\4\x94<?2?1?1U:ÞhM=\\4972>6Ê\u04085@3=3¤<\x897<41?<4h8:6X8N22~Ƅ<>2535379M3;56::68879Ã1gU:\u0436\ua710P\u10697Ď2",
  "\u16b2>\u1d61\u0c4fɎ\u0612\u137b"] ++
  [716213, 240, 196112]

def isPrintable (c : Char) : Bool :=
  if c.toNat < 0x80 then 0x20 ≤ c.toNat && c.toNat < 0x7F else !inRuns false hiddenRuns c.toNat

end Peephole.Text
