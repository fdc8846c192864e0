import Deriver.Parse.Item

/-!
# Parsing a file
-/

namespace Deriver

/-- What parsing a file yields. -/
structure Parsed where
  file : SourceFile
  errors : List ParseError

namespace Parse

/-- The items sorted into what a file declares and what is wrong with it. -/
def collect (items : List Item) : Parsed where
  file :=
    { decls := items.filterMap fun
        | .decl d => some d
        | _ => none
      skipped := (items.filter fun
        | .skipped => true
        | _ => false).length
      modules := items.filterMap fun
        | .inlineModule m => some m
        | _ => none }
  errors := items.filterMap fun
    | .error e => some e
    | _ => none

end Parse

/-- The declarations in a list of tokens, which were read from `source`; an empty
source says that it is not at hand. -/
def parseTokens (source : Text) (tokens : List Token) : Parsed :=
  Parse.collect (Parse.items source tokens)

/-- The declarations in a source text. Lexical errors come before the others. -/
def parse (source : Text) : Parsed :=
  let scanned := scan source
  let parsed := parseTokens source scanned.tokens
  { parsed with errors := scanned.errors.map .ofLexError ++ parsed.errors }

end Deriver
