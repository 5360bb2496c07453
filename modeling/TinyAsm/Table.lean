import Std.Data.ExtTreeMap
import TinyAsm.Word

/-!
# Tables of named words

The register file and the label table are finite maps from names to words. Two tables
are equal exactly if they hold the same entries, whatever the order in which those were
put in, and `toList` lists the entries by name.
-/

namespace TinyAsm

/-- A finite map from names to words. -/
abbrev Table := Std.ExtTreeMap String Word

end TinyAsm
