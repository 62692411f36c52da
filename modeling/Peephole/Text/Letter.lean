import Peephole.Text.Runs

/-!
# Letters and digits

`isLetterOrDigit` tells the letters, digits and other numeric characters of all scripts.
-/

namespace Peephole.Text

/-- The runs of letters and numeric characters above U+007F. -/
def letterRuns : List Nat := runLengths [
  "Ú1721132131G1O1Ǻ4<>57111±51224116113111D1\x831»8Ö1V216YwK44][E:421\x9311?27?21@11NM\x89;1>[92415F419131GI7;5H16AZjf",
  "31B17:4:1@48222F17113431@1=2134<262186422F17121212O4117:23@9131F17121531B1?24:91;8222F17121531N2134:17;116331432111",
  "232333<F1E=B8131G1@31J321224:871148131G1:1531O2124:12A9131Y21@1531:4C165B3H191127O:A`12<79:W211151H111:129125119:24",
  "P1OD<81TK5£[D;66443132734=<11:6V11512[1Ž142711142Y142Q142711142?1i142s>D3@@\x86263ʜ2A1J5\x7b3;7B=C>B>=13?dS1413:6:F",
  ":6\x89752R115v:OWX25;\\4J6;UG9e[:6:=1\x8d_A83:YN=hJTL:3a297[23Y41612315ðpņ262V26281111111O2e1711331734264=5317£2265",
  ";6=\x951412:1135611111141;2455411j\u0306l~FʦN\u049cĕ6432912V11512h71@G9717171717171717\x801ȅ3I975254\x86631\x8a145[",
  "1\x8e34:P`@P:N81?P:W?Ű\u19f0p\u56bds^2Ľ3LD_@O2\x80W92\x972p521115H@13141G=6:d>bL:H631121V:GIM7_L;651I1YG3184:6G313b",
  "1132252111H32;73<6262697171[1>6£=:6\u2bd4<G4a\u2134ƞ2\x9aV7<5511:1=151112121\x9cQƛBp2fX<¤51·C:7J6J;\x8936262623S<1J",
  "1C121?2>R«<]<iA2ĤM3a@K4T9N5V:N2T4815ZÎ2:6T4T4X8d<;1?17121;1?1712sŧ9F:8H61Z19u6211\\12312G2O2V89`C125Q4Jvh4D2_?4131M",
  ":9GO1PP81L65@f:F2K5JG7\x80ygc=c7Z<:ŖO1Z62~X8F;4KB^LDG<eJN1221=]PI7:9T?:41218S31<`>4;;114D;B1I\x84711141?1:7_A:;8222",
  "F17121531B1<5ÎeB45:53N`D2118:Ö_Y4T`D1;:V[=17:fKE<47é\\¤\x83<82128121H?111>:v82W@111L1:X71E1;^C1Byķ91UA1?M5N\xa07121",
  "VE19:66121P>17:ŦCí1?E[\u03ca\x96\x9fAô\u0a7c\x91?\u045f\u1001ɷ\u21e9ɩ7O1:6\x7f1:6NB`@4<:171E5Cˠ\x87\x99\x7b51r=p211",
  "L\u18288\u0506Z9\u2317417121œ]3A48Ƽ\u0934\x9b5=397:\u1676D\x9cI·\x851w122122241<11171q1428171L141511371Ƅ2I1I1O1I1O1",
  "I1O1I1O1I182b\u0730Oȑ]:72:41űNB\\4:\u0516714121?1õ29`t714:\u0347k1314|]1?ò41K1211211:141111614111111312112111111111",
  "121124171414111:1A53151Aɴ=\u0b13:\u0436\ua710P\u10697Ď2\u16b2>\u1d61\u0c4fɎ\u0612\u137b"]

def isLetterOrDigit (c : Char) : Bool := if c.toNat < 0x80 then c.isAlphanum else inRuns false letterRuns c.toNat

def isWordChar (c : Char) : Bool := isLetterOrDigit c || c == '_'

end Peephole.Text
