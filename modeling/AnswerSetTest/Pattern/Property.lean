import AnswerSetTest.Pattern.CharSet

/-!
# Character properties

The properties that a pattern may name, by general category, by yes-or-no property and by script,
each with the ASCII characters that have it. Case, blanks, hyphens and underscores in a name do
not matter, nor does `is` in front of it.
-/

namespace AnswerSetTest.Pattern.Property

open CharSet

def normalize (name : String) : String :=
  let cs := (name.toList.filter fun c =>
    c != ' ' && c != '_' && c != '-' && c.toNat < 128).map Char.toLower
  match cs with
  | ['i', 's', 'c'] => "isc"
  | 'i' :: 's' :: rest => String.ofList rest
  | _ => String.ofList cs

abbrev Table := List (List String × CharSet)

def Table.find? (table : Table) (name : String) : Option CharSet :=
  (List.find? (fun e => e.1.contains name) table).map Prod.snd

def categories : Table := [
  (["any", "assigned"], full),
  (["ascii"], .ranges [(0, 127)]),
  (["l", "letter", "lc", "casedletter"], letter),
  (["lu", "uppercaseletter"], upper),
  (["ll", "lowercaseletter"], lower),
  (["n", "number", "nd", "decimalnumber", "digit"], digit),
  (["p", "punctuation", "punct"], ofString "!\"#%&'()*,-./:;?@[\\]_\x7b\x7d"),
  (["pc", "connectorpunctuation"], ofString "_"),
  (["pd", "dashpunctuation"], ofString "-"),
  (["ps", "openpunctuation"], ofString "([\x7b"),
  (["pe", "closepunctuation"], ofString ")]\x7d"),
  (["po", "otherpunctuation"], ofString "!\"#%&'*,./:;?@\\"),
  (["s", "symbol"], ofString "$+<=>^\x60|~"),
  (["sm", "mathsymbol"], ofString "+<=>|~"),
  (["sc", "currencysymbol"], ofString "$"),
  (["sk", "modifiersymbol"], ofString "^\x60"),
  (["z", "separator", "zs", "spaceseparator"], ofString " "),
  (["c", "other", "cc", "control", "cntrl"], control),
  (["lt", "titlecaseletter", "lm", "modifierletter", "lo", "otherletter", "m", "mark",
    "combiningmark", "mn", "nonspacingmark", "mc", "spacingmark", "me", "enclosingmark",
    "nl", "letternumber", "no", "othernumber", "pi", "initialpunctuation", "pf",
    "finalpunctuation", "so", "othersymbol", "zl", "lineseparator", "zp",
    "paragraphseparator", "cf", "format", "cn", "unassigned", "co", "privateuse"], .empty)]

def flags : Table := [
  (["alphabetic", "alpha", "cased", "idstart", "ids", "xidstart", "xids",
    "changeswhencasemapped", "cwcm"], letter),
  (["idcontinue", "idc", "xidcontinue", "xidc"], word),
  (["uppercase", "upper", "changeswhencasefolded", "cwcf", "changeswhenlowercased", "cwl"], upper),
  (["lowercase", "lower", "changeswhentitlecased", "cwt", "changeswhenuppercased", "cwu"], lower),
  (["asciihexdigit", "ahex", "hexdigit", "hex"], .ranges [(48, 57), (65, 70), (97, 102)]),
  (["whitespace", "wspace", "space", "patternwhitespace", "patws"], space),
  (["dash"], ofString "-"),
  (["math"], ofString "+<=>^|~"),
  (["softdotted", "sd"], ofString "ij"),
  (["diacritic", "dia"], ofString "^\x60"),
  (["caseignorable", "ci"], ofString "'.:^\x60"),
  (["quotationmark", "qmark"], ofString "\"'"),
  (["sentenceterminal", "sterm"], ofString "!.?"),
  (["terminalpunctuation", "term"], ofString "!,.:;?"),
  (["bidimirrored", "bidim"], ofString "()<>[]\x7b\x7d"),
  (["emoji", "emojicomponent", "ecomp"], .union digit (ofString "#*")),
  (["graphemebase", "grbase"], .ranges [(32, 126)]),
  (["patternsyntax", "patsyn"],
    .ranges [(33, 47), (58, 64), (91, 94), (96, 96), (123, 126)]),
  (["bidicontrol", "bidic", "defaultignorablecodepoint", "di", "deprecated", "dep",
    "emojimodifier", "emod", "emojimodifierbase", "ebase", "emojipresentation", "epres",
    "extendedpictographic", "extpict", "extender", "ext", "graphemeextend", "grext",
    "idsbinaryoperator", "idsb", "idstrinaryoperator", "idst", "ideographic", "ideo",
    "joincontrol", "joinc", "logicalorderexception", "loe", "noncharactercodepoint", "nchar",
    "prependedconcatenationmark", "pcm", "radical", "regionalindicator", "ri",
    "unifiedideograph", "uideo", "variationselector", "vs"], .empty)]

def scripts : Table := [
  (["latin", "latn"], letter),
  (["common", "zyyy"], .diff (.ranges [(0, 127)]) letter),
  (["inherited", "zinh", "qaai", "greek", "grek", "cyrillic", "cyrl", "armenian", "armn",
    "hebrew", "hebr", "arabic", "arab", "syriac", "syrc", "thaana", "thaa", "devanagari", "deva",
    "bengali", "beng", "gurmukhi", "guru", "gujarati", "gujr", "oriya", "orya", "tamil", "taml",
    "telugu", "telu", "kannada", "knda", "malayalam", "mlym", "sinhala", "sinh", "thai", "lao",
    "laoo", "tibetan", "tibt", "myanmar", "mymr", "georgian", "geor", "hangul", "hang",
    "ethiopic", "ethi", "cherokee", "cher", "canadianaboriginal", "cans", "ogham", "ogam",
    "runic", "runr", "khmer", "khmr", "mongolian", "mong", "hiragana", "hira", "katakana",
    "kana", "bopomofo", "bopo", "han", "hani", "yi", "yiii", "olditalic", "ital", "gothic",
    "goth", "deseret", "dsrt", "tagalog", "tglg", "hanunoo", "hano", "buhid", "buhd",
    "tagbanwa", "tagb", "limbu", "limb", "taile", "tale", "linearb", "linb", "ugaritic", "ugar",
    "shavian", "shaw", "osmanya", "osma", "cypriot", "cprt", "braille", "brai", "buginese",
    "bugi", "coptic", "copt", "qaac", "newtailue", "talu", "glagolitic", "glag", "tifinagh",
    "tfng", "sylotinagri", "sylo", "oldpersian", "xpeo", "kharoshthi", "khar", "balinese",
    "bali", "cuneiform", "xsux", "phoenician", "phnx", "phagspa", "phag", "nko", "nkoo",
    "sundanese", "sund", "lepcha", "lepc", "olchiki", "olck", "vai", "vaii", "saurashtra",
    "saur", "kayahli", "kali", "rejang", "rjng", "lycian", "lyci", "carian", "cari", "lydian",
    "lydi", "cham", "taitham", "lana", "taiviet", "tavt", "avestan", "avst",
    "egyptianhieroglyphs", "egyp", "samaritan", "samr", "lisu", "bamum", "bamu", "javanese",
    "java", "meeteimayek", "mtei", "brahmi", "brah", "mandaic", "mand", "batak", "batk"],
    .empty)]

/-- The property with a single name. A name that could be a category's or a property's is taken
as a category's. -/
def named? (name : String) : Option CharSet :=
  let n := normalize name
  if n = "cf" ∨ n = "sc" ∨ n = "lc" then categories.find? n
  else (flags.find? n).or ((categories.find? n).or (scripts.find? n))

def valued? (name value : String) : Option CharSet :=
  match normalize name with
  | "gc" | "generalcategory" => categories.find? (normalize value)
  | "sc" | "script" | "scx" | "scriptextensions" => scripts.find? (normalize value)
  | _ => none

end AnswerSetTest.Pattern.Property
