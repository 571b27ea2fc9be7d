import TriShare.Json.Reader
import TriShare.Party.Basic
/-!
Parties as JSON documents: the name of the party, alone or as the name of the only field of an
object, whose value is null.
-/

namespace TriShare.Party

/-- The party with a name. -/
def ofTag? (s : String) : Option Party := all.find? fun p => p.tag == s

/-- The party of a document. -/
def ofJson? : Json → Option Party
  | .string s => ofTag? s
  | .object [(s, .null)] => ofTag? s
  | _ => none

end TriShare.Party
