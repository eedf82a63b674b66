import Phrasebook.Plural.Rule

/-!
# The plural rules of languages

Languages with the same rules are listed together.

* `rulesOf?` gives the rules of a language, named by its code in lower case.
* `portugueseOfEurope` are the rules of Portuguese outside Brazil.
-/

namespace Phrasebook.Plural

/-- Languages with common rules. -/
structure LanguageGroup where
  codes : List String
  rules : Rules

/-- Every language with its rules. -/
def languageGroups : List LanguageGroup := [
  ⟨[
      "yue", "co", "wal", "hnj", "rif", "bew", "mni", "sa", "vmw", "raj", "bgc", "cch", "sbp", "mus", "su", "bgn",
      "trv", "ba", "ie", "lrc", "yav", "osa", "kxv", "szl", "bm", "arn", "bo", "guz", "id", "dje", "ii", "kde",
      "yo", "nus", "gn", "ses", "bss", "kok", "byn", "cad", "tg", "skr", "qu", "th", "cu", "frr", "rw", "ja", "ksf",
      "tpi", "dz", "apc", "rhg", "mer", "zh", "oc", "my", "mdf", "ewo", "mzn", "bas", "xnr", "pis", "mua", "luy",
      "ab", "cic", "dav", "lmo", "gaa", "nqo", "to", "blt", "rn", "zgh", "ccp", "mgh", "tt", "za", "yrl", "vai",
      "tyv", "quc", "vi", "jv", "gez", "nmg", "nds", "dyo", "nv", "mic", "twq", "cop", "sah", "trw", "km", "khq",
      "luo", "kam", "wo", "kea", "sg", "aa", "mai", "ann", "wbp", "mi", "cho", "ig", "tok", "mhn", "ebu", "ltg",
      "ki", "shn", "jbo", "myv", "la", "kgp", "agq", "lo", "sid", "kln", "ko", "lkt", "lu", "kpe", "moh", "cv",
      "mfe", "ms", "kaa", "ken", "dua"],
    {}⟩,
  ⟨["ar"],
    { zero := [[isIn .n 0 [(0, 0)]]]
      one := [[isIn .n 0 [(1, 1)]]]
      two := [[isIn .n 0 [(2, 2)]]]
      few := [[isIn .n 100 [(3, 10)]]]
      many := [[isIn .n 100 [(11, 99)]]] }⟩,
  ⟨["be"],
    { one := [[isIn .n 10 [(1, 1)], notIn .n 100 [(11, 11)]]]
      few := [[isIn .n 10 [(2, 4)], notIn .n 100 [(12, 14)]]]
      many := [[isIn .n 10 [(0, 0)]], [isIn .n 10 [(5, 9)]], [isIn .n 100 [(11, 14)]]] }⟩,
  ⟨["br"],
    { one := [[isIn .n 10 [(1, 1)], notIn .n 100 [(11, 11), (71, 71), (91, 91)]]]
      two := [[isIn .n 10 [(2, 2)], notIn .n 100 [(12, 12), (72, 72), (92, 92)]]]
      few := [[isIn .n 10 [(3, 4), (9, 9)], notIn .n 100 [(10, 19), (70, 79), (90, 99)]]]
      many := [[notIn .n 0 [(0, 0)], isIn .n 1000000 [(0, 0)]]] }⟩,
  ⟨["ca", "lld", "scn", "it", "vec"],
    { one := [[isIn .i 0 [(1, 1)], isIn .v 0 [(0, 0)]]]
      many := [
        [isIn .e 0 [(0, 0)], notIn .i 0 [(0, 0)], isIn .i 1000000 [(0, 0)], isIn .v 0 [(0, 0)]],
        [notIn .e 0 [(0, 5)]]] }⟩,
  ⟨["ceb", "fil"],
    { one := [
        [isIn .v 0 [(0, 0)], isIn .i 0 [(1, 1), (2, 2), (3, 3)]],
        [isIn .v 0 [(0, 0)], notIn .i 10 [(4, 4), (6, 6), (9, 9)]],
        [notIn .v 0 [(0, 0)], notIn .f 10 [(4, 4), (6, 6), (9, 9)]]] }⟩,
  ⟨["cs", "sk"],
    { one := [[isIn .i 0 [(1, 1)], isIn .v 0 [(0, 0)]]]
      few := [[isIn .i 0 [(2, 4)], isIn .v 0 [(0, 0)]]]
      many := [[notIn .v 0 [(0, 0)]]] }⟩,
  ⟨["cy"],
    { zero := [[isIn .n 0 [(0, 0)]]]
      one := [[isIn .n 0 [(1, 1)]]]
      two := [[isIn .n 0 [(2, 2)]]]
      few := [[isIn .n 0 [(3, 3)]]]
      many := [[isIn .n 0 [(6, 6)]]] }⟩,
  ⟨["da"],
    { one := [[isIn .n 0 [(1, 1)]], [notIn .t 0 [(0, 0)], isIn .i 0 [(0, 0), (1, 1)]]] }⟩,
  ⟨["es"],
    { one := [[isIn .n 0 [(1, 1)]]]
      many := [
        [isIn .e 0 [(0, 0)], notIn .i 0 [(0, 0)], isIn .i 1000000 [(0, 0)], isIn .v 0 [(0, 0)]],
        [notIn .e 0 [(0, 5)]]] }⟩,
  ⟨["fy", "sc", "lij", "yi", "et", "nl", "ia", "de", "sv", "ur", "ast", "gl", "en", "fi", "sw", "io"],
    { one := [[isIn .i 0 [(1, 1)], isIn .v 0 [(0, 0)]]] }⟩,
  ⟨["ga"],
    { one := [[isIn .n 0 [(1, 1)]]]
      two := [[isIn .n 0 [(2, 2)]]]
      few := [[isIn .n 0 [(3, 6)]]]
      many := [[isIn .n 0 [(7, 10)]]] }⟩,
  ⟨["gd"],
    { one := [[isIn .n 0 [(1, 1), (11, 11)]]]
      two := [[isIn .n 0 [(2, 2), (12, 12)]]]
      few := [[isIn .n 0 [(3, 10), (13, 19)]]] }⟩,
  ⟨["gv"],
    { one := [[isIn .v 0 [(0, 0)], isIn .i 10 [(1, 1)]]]
      two := [[isIn .v 0 [(0, 0)], isIn .i 10 [(2, 2)]]]
      few := [[isIn .v 0 [(0, 0)], isIn .i 100 [(0, 0), (20, 20), (40, 40), (60, 60), (80, 80)]]]
      many := [[notIn .v 0 [(0, 0)]]] }⟩,
  ⟨["he"],
    { one := [[isIn .i 0 [(1, 1)], isIn .v 0 [(0, 0)]], [isIn .i 0 [(0, 0)], notIn .v 0 [(0, 0)]]]
      two := [[isIn .i 0 [(2, 2)], isIn .v 0 [(0, 0)]]] }⟩,
  ⟨["hsb", "dsb"],
    { one := [[isIn .v 0 [(0, 0)], isIn .i 100 [(1, 1)]], [isIn .f 100 [(1, 1)]]]
      two := [[isIn .v 0 [(0, 0)], isIn .i 100 [(2, 2)]], [isIn .f 100 [(2, 2)]]]
      few := [[isIn .v 0 [(0, 0)], isIn .i 100 [(3, 4)]], [isIn .f 100 [(3, 4)]]] }⟩,
  ⟨["ht", "fr"],
    { one := [[isIn .i 0 [(0, 0), (1, 1)]]]
      many := [
        [isIn .e 0 [(0, 0)], notIn .i 0 [(0, 0)], isIn .i 1000000 [(0, 0)], isIn .v 0 [(0, 0)]],
        [notIn .e 0 [(0, 5)]]] }⟩,
  ⟨["is"],
    { one := [
        [isIn .t 0 [(0, 0)], isIn .i 10 [(1, 1)], notIn .i 100 [(11, 11)]],
        [isIn .t 10 [(1, 1)], notIn .t 100 [(11, 11)]]] }⟩,
  ⟨[
      "jgo", "tk", "sn", "ce", "ha", "bg", "nd", "kcg", "af", "rwk", "ta", "ky", "chr", "el", "mas", "cgg", "teo",
      "lg", "tn", "fur", "ka", "brx", "nn", "xog", "tig", "vo", "no", "ts", "syr", "ml", "sq", "nr", "tr", "ss",
      "ks", "jmc", "rm", "ksb", "mgo", "ny", "ne", "xh", "gsw", "bal", "az", "nb", "eu", "ckb", "kl", "kkj", "mn",
      "so", "dv", "an", "rof", "ee", "kk", "nnh", "st", "wae", "bem", "ug", "uz", "os", "hu", "lb", "pap", "nyn",
      "sdh", "eo", "vun", "ku", "bez", "seh", "fo", "ps", "sd", "or", "te", "saq", "kaj", "asa", "ve", "ssy", "mr",
      "om", "haw"],
    { one := [[isIn .n 0 [(1, 1)]]] }⟩,
  ⟨["kab", "ff", "hy"],
    { one := [[isIn .i 0 [(0, 0), (1, 1)]]] }⟩,
  ⟨["kn", "bn", "fa", "gu", "pcm", "zu", "as", "hi", "doi", "am"],
    { one := [[isIn .i 0 [(0, 0)]], [isIn .n 0 [(1, 1)]]] }⟩,
  ⟨["ksh", "blo"],
    { zero := [[isIn .n 0 [(0, 0)]]]
      one := [[isIn .n 0 [(1, 1)]]] }⟩,
  ⟨["kw"],
    { zero := [[isIn .n 0 [(0, 0)]]]
      one := [[isIn .n 0 [(1, 1)]]]
      two := [
        [isIn .n 100 [(2, 2), (22, 22), (42, 42), (62, 62), (82, 82)]],
        [isIn .n 1000 [(0, 0)], isIn .n 100000 [(1000, 20000), (40000, 40000), (60000, 60000), (80000, 80000)]],
        [notIn .n 0 [(0, 0)], isIn .n 1000000 [(100000, 100000)]]]
      few := [[isIn .n 100 [(3, 3), (23, 23), (43, 43), (63, 63), (83, 83)]]]
      many := [[notIn .n 0 [(1, 1)], isIn .n 100 [(1, 1), (21, 21), (41, 41), (61, 61), (81, 81)]]] }⟩,
  ⟨["lag"],
    { zero := [[isIn .n 0 [(0, 0)]]]
      one := [[isIn .i 0 [(0, 0), (1, 1)], notIn .n 0 [(0, 0)]]] }⟩,
  ⟨["ln", "wa", "ak", "pa", "ti", "mg", "nso", "csw", "bho"],
    { one := [[isIn .n 0 [(0, 1)]]] }⟩,
  ⟨["lt"],
    { one := [[isIn .n 10 [(1, 1)], notIn .n 100 [(11, 19)]]]
      few := [[isIn .n 10 [(2, 9)], notIn .n 100 [(11, 19)]]]
      many := [[notIn .f 0 [(0, 0)]]] }⟩,
  ⟨["mk"],
    { one := [
        [isIn .v 0 [(0, 0)], isIn .i 10 [(1, 1)], notIn .i 100 [(11, 11)]],
        [isIn .f 10 [(1, 1)], notIn .f 100 [(11, 11)]]] }⟩,
  ⟨["mt"],
    { one := [[isIn .n 0 [(1, 1)]]]
      two := [[isIn .n 0 [(2, 2)]]]
      few := [[isIn .n 0 [(0, 0)]], [isIn .n 100 [(3, 10)]]]
      many := [[isIn .n 100 [(11, 19)]]] }⟩,
  ⟨["pl"],
    { one := [[isIn .i 0 [(1, 1)], isIn .v 0 [(0, 0)]]]
      few := [[isIn .v 0 [(0, 0)], isIn .i 10 [(2, 4)], notIn .i 100 [(12, 14)]]]
      many := [
        [isIn .v 0 [(0, 0)], notIn .i 0 [(1, 1)], isIn .i 10 [(0, 1)]],
        [isIn .v 0 [(0, 0)], isIn .i 10 [(5, 9)]],
        [isIn .v 0 [(0, 0)], isIn .i 100 [(12, 14)]]] }⟩,
  ⟨["prg", "lv"],
    { zero := [[isIn .n 10 [(0, 0)]], [isIn .n 100 [(11, 19)]], [isIn .v 0 [(2, 2)], isIn .f 100 [(11, 19)]]]
      one := [
        [isIn .n 10 [(1, 1)], notIn .n 100 [(11, 11)]],
        [isIn .v 0 [(2, 2)], isIn .f 10 [(1, 1)], notIn .f 100 [(11, 11)]],
        [notIn .v 0 [(2, 2)], isIn .f 10 [(1, 1)]]] }⟩,
  ⟨["pt"],
    { one := [[isIn .i 0 [(0, 1)]]]
      many := [
        [isIn .e 0 [(0, 0)], notIn .i 0 [(0, 0)], isIn .i 1000000 [(0, 0)], isIn .v 0 [(0, 0)]],
        [notIn .e 0 [(0, 5)]]] }⟩,
  ⟨["ro"],
    { one := [[isIn .i 0 [(1, 1)], isIn .v 0 [(0, 0)]]]
      few := [[notIn .v 0 [(0, 0)]], [isIn .n 0 [(0, 0)]], [notIn .n 0 [(1, 1)], isIn .n 100 [(1, 19)]]] }⟩,
  ⟨["ru", "uk"],
    { one := [[isIn .v 0 [(0, 0)], isIn .i 10 [(1, 1)], notIn .i 100 [(11, 11)]]]
      few := [[isIn .v 0 [(0, 0)], isIn .i 10 [(2, 4)], notIn .i 100 [(12, 14)]]]
      many := [
        [isIn .v 0 [(0, 0)], isIn .i 10 [(0, 0)]],
        [isIn .v 0 [(0, 0)], isIn .i 10 [(5, 9)]],
        [isIn .v 0 [(0, 0)], isIn .i 100 [(11, 14)]]] }⟩,
  ⟨["shi"],
    { one := [[isIn .i 0 [(0, 0)]], [isIn .n 0 [(1, 1)]]]
      few := [[isIn .n 0 [(2, 10)]]] }⟩,
  ⟨["si"],
    { one := [[isIn .n 0 [(0, 0), (1, 1)]], [isIn .i 0 [(0, 0)], isIn .f 0 [(1, 1)]]] }⟩,
  ⟨["sl"],
    { one := [[isIn .v 0 [(0, 0)], isIn .i 100 [(1, 1)]]]
      two := [[isIn .v 0 [(0, 0)], isIn .i 100 [(2, 2)]]]
      few := [[isIn .v 0 [(0, 0)], isIn .i 100 [(3, 4)]], [notIn .v 0 [(0, 0)]]] }⟩,
  ⟨["smj", "se", "sms", "sma", "iu", "naq", "smn", "sat"],
    { one := [[isIn .n 0 [(1, 1)]]]
      two := [[isIn .n 0 [(2, 2)]]] }⟩,
  ⟨["sr", "bs", "hr"],
    { one := [
        [isIn .v 0 [(0, 0)], isIn .i 10 [(1, 1)], notIn .i 100 [(11, 11)]],
        [isIn .f 10 [(1, 1)], notIn .f 100 [(11, 11)]]]
      few := [
        [isIn .v 0 [(0, 0)], isIn .i 10 [(2, 4)], notIn .i 100 [(12, 14)]],
        [isIn .f 10 [(2, 4)], notIn .f 100 [(12, 14)]]] }⟩,
  ⟨["tzm"],
    { one := [[isIn .n 0 [(0, 1)]], [isIn .n 0 [(11, 99)]]] }⟩]

/-- The rules of Portuguese outside Brazil. -/
def portugueseOfEurope : Rules :=
    { one := [[isIn .i 0 [(1, 1)], isIn .v 0 [(0, 0)]]]
      many := [
        [isIn .e 0 [(0, 0)], notIn .i 0 [(0, 0)], isIn .i 1000000 [(0, 0)], isIn .v 0 [(0, 0)]],
        [notIn .e 0 [(0, 5)]]] }

/-- The rules of a language. -/
def rulesOf? (language : String) : Option Rules :=
  (languageGroups.find? fun group => group.codes.contains language).map LanguageGroup.rules

end Phrasebook.Plural
