import DocumentMerge.Charset.SingleByte
import DocumentMerge.Charset.Unicode

/-!
# Charsets by their labels

A value may be given as bytes together with the label of a charset.  The labels are those of the
web: several stand for one charset, `latin1` and `ascii` for Windows 1252, and case and white
space around a label do not matter.

Seven charsets of the web are left out, those with tables of characters of several bytes: gb18030,
GBK, Big5, EUC-JP, ISO-2022-JP, Shift_JIS and EUC-KR.  Their labels are unknown here.

A byte order mark at the beginning of the bytes has the last word: whatever the label says, the
bytes are then decoded as the mark says, and the mark itself is dropped.
-/

namespace DocumentMerge

/-- How bytes stand for characters. -/
inductive Charset where
  | utf8
  | utf16 (bigEndian : Bool)
  | singleByte (table : Charset.SingleByte)
  /-- ASCII, and private characters for the bytes from 128 on. -/
  | userDefined
  /-- A charset that is known but not decoded: any text is one U+FFFD. -/
  | refused
  deriving DecidableEq, Repr

namespace Charset

/-- The labels of the charsets that are decoded here, in lower case. -/
def labels : List (Charset × List String) :=
  [(.utf8, ["unicode-1-1-utf-8", "unicode11utf8", "unicode20utf8", "utf-8", "utf8",
      "x-unicode20utf8"]),
    (.singleByte .ibm866, ["866", "cp866", "csibm866", "ibm866"]),
    (.singleByte .latin2, ["csisolatin2", "iso-8859-2", "iso-ir-101", "iso8859-2", "iso88592",
      "iso_8859-2", "iso_8859-2:1987", "l2", "latin2"]),
    (.singleByte .latin3, ["csisolatin3", "iso-8859-3", "iso-ir-109", "iso8859-3", "iso88593",
      "iso_8859-3", "iso_8859-3:1988", "l3", "latin3"]),
    (.singleByte .latin4, ["csisolatin4", "iso-8859-4", "iso-ir-110", "iso8859-4", "iso88594",
      "iso_8859-4", "iso_8859-4:1988", "l4", "latin4"]),
    (.singleByte .cyrillic, ["csisolatincyrillic", "cyrillic", "iso-8859-5", "iso-ir-144",
      "iso8859-5", "iso88595", "iso_8859-5", "iso_8859-5:1988"]),
    (.singleByte .arabic, ["arabic", "asmo-708", "csiso88596e", "csiso88596i",
      "csisolatinarabic", "ecma-114", "iso-8859-6", "iso-8859-6-e", "iso-8859-6-i", "iso-ir-127",
      "iso8859-6", "iso88596", "iso_8859-6", "iso_8859-6:1987"]),
    (.singleByte .greek, ["csisolatingreek", "ecma-118", "elot_928", "greek", "greek8",
      "iso-8859-7", "iso-ir-126", "iso8859-7", "iso88597", "iso_8859-7", "iso_8859-7:1987",
      "sun_eu_greek"]),
    (.singleByte .hebrew, ["csiso88598e", "csisolatinhebrew", "hebrew", "iso-8859-8",
      "iso-8859-8-e", "iso-ir-138", "iso8859-8", "iso88598", "iso_8859-8", "iso_8859-8:1988",
      "visual", "csiso88598i", "iso-8859-8-i", "logical"]),
    (.singleByte .latin6, ["csisolatin6", "iso-8859-10", "iso-ir-157", "iso8859-10", "iso885910",
      "l6", "latin6"]),
    (.singleByte .latin7, ["iso-8859-13", "iso8859-13", "iso885913"]),
    (.singleByte .latin8, ["iso-8859-14", "iso8859-14", "iso885914"]),
    (.singleByte .latin9, ["csisolatin9", "iso-8859-15", "iso8859-15", "iso885915",
      "iso_8859-15", "l9"]),
    (.singleByte .latin10, ["iso-8859-16"]),
    (.singleByte .koi8r, ["cskoi8r", "koi", "koi8", "koi8-r", "koi8_r"]),
    (.singleByte .koi8u, ["koi8-ru", "koi8-u"]),
    (.singleByte .macintosh, ["csmacintosh", "mac", "macintosh", "x-mac-roman"]),
    (.singleByte .windows874, ["dos-874", "iso-8859-11", "iso8859-11", "iso885911", "tis-620",
      "windows-874"]),
    (.singleByte .windows1250, ["cp1250", "windows-1250", "x-cp1250"]),
    (.singleByte .windows1251, ["cp1251", "windows-1251", "x-cp1251"]),
    (.singleByte .windows1252, ["ansi_x3.4-1968", "ascii", "cp1252", "cp819", "csisolatin1",
      "ibm819", "iso-8859-1", "iso-ir-100", "iso8859-1", "iso88591", "iso_8859-1",
      "iso_8859-1:1987", "l1", "latin1", "us-ascii", "windows-1252", "x-cp1252"]),
    (.singleByte .windows1253, ["cp1253", "windows-1253", "x-cp1253"]),
    (.singleByte .windows1254, ["cp1254", "csisolatin5", "iso-8859-9", "iso-ir-148", "iso8859-9",
      "iso88599", "iso_8859-9", "iso_8859-9:1989", "l5", "latin5", "windows-1254", "x-cp1254"]),
    (.singleByte .windows1255, ["cp1255", "windows-1255", "x-cp1255"]),
    (.singleByte .windows1256, ["cp1256", "windows-1256", "x-cp1256"]),
    (.singleByte .windows1257, ["cp1257", "windows-1257", "x-cp1257"]),
    (.singleByte .windows1258, ["cp1258", "windows-1258", "x-cp1258"]),
    (.singleByte .macCyrillic, ["x-mac-cyrillic", "x-mac-ukrainian"]),
    (.refused, ["csiso2022kr", "hz-gb-2312", "iso-2022-cn", "iso-2022-cn-ext", "iso-2022-kr",
      "replacement"]),
    (.utf16 true, ["unicodefffe", "utf-16be"]),
    (.utf16 false, ["csunicode", "iso-10646-ucs-2", "ucs-2", "unicode", "unicodefeff", "utf-16",
      "utf-16le"]),
    (.userDefined, ["x-user-defined"])]

/-- Lower case of an ASCII letter; any other character as it is. -/
def lowerAscii (c : Char) : Char :=
  if 'A' ≤ c ∧ c ≤ 'Z' then Char.ofNat (c.toNat + 32) else c

/-- The charset of a label. -/
def ofLabel? (label : Text) : Option Charset :=
  let wanted := String.ofList ((Text.trim label).map lowerAscii)
  (labels.find? fun entry => entry.2.contains wanted).map Prod.fst

/-- The charset that a byte order mark names, and the bytes behind the mark. -/
def ofMark? : List UInt8 → Option (Charset × List UInt8)
  | 0xEF :: 0xBB :: 0xBF :: bytes => some (.utf8, bytes)
  | 0xFF :: 0xFE :: bytes => some (.utf16 false, bytes)
  | 0xFE :: 0xFF :: bytes => some (.utf16 true, bytes)
  | _ => none

/-- The character of a byte in the user-defined charset. -/
def userDefinedByte (b : UInt8) : Char :=
  if b < 128 then Char.ofNat b.toNat else Char.ofNat (0xF780 + (b.toNat - 128))

/-- Decodes bytes that carry no byte order mark. -/
def decodeUnmarked (charset : Charset) (bytes : List UInt8) : Text :=
  match charset with
  | .utf8 => decodeUtf8 [] bytes
  | .utf16 bigEndian => decodeUtf16 bigEndian bytes
  | .singleByte table => table.decode bytes
  | .userDefined => bytes.map userDefinedByte
  | .refused => if bytes.isEmpty then [] else [replacement]

/-- Decodes bytes, by their byte order mark if they have one. -/
def decode (charset : Charset) (bytes : List UInt8) : Text :=
  match ofMark? bytes with
  | some (marked, rest) => marked.decodeUnmarked rest
  | none => charset.decodeUnmarked bytes

end Charset

end DocumentMerge
