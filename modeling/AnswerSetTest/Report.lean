import AnswerSetTest.Text.Quoted

/-!
# Reports

What is said of a unit that passed, as a line of text or as one line of JSON.
-/

namespace AnswerSetTest

structure Report where
  unit : String
  file : String
  assertions : List String
  assertionCount : Nat
  modelCount : Nat
deriving DecidableEq

namespace Report

def summaryLine (r : Report) : String :=
  "ASPUNIT: " ++ r.unit ++ ":  " ++ toString r.assertionCount ++ " asserts,  " ++
    toString r.modelCount ++ " model" ++ (if r.modelCount > 1 then "s" else "")

def json (r : Report) : String :=
  "\x7b\"unit\":" ++ Text.jsonString r.unit ++ ",\"file\":" ++ Text.jsonString r.file ++
    ",\"assertions\":[" ++ ",".intercalate (r.assertions.map Text.jsonString) ++
    "],\"assertion_count\":" ++ toString r.assertionCount ++
    ",\"model_count\":" ++ toString r.modelCount ++ "\x7d"

end Report

inductive OutputFormat where
  | text | json
deriving DecidableEq

def Report.line (format : OutputFormat) (r : Report) : String :=
  (match format with
    | .text => r.summaryLine
    | .json => r.json) ++ "\n"

end AnswerSetTest
