import TypeSpelling.Proofs.Lengths

/-!
# Tables whose entries share spellings

The entries of a table may share spellings, repeat them, and be equal to each other.
A spelling belongs to the first entry that declares it, and entries that are added
behind others take no spelling away from them.  The shortest spelling of a name is
looked for among the spellings of the name's entry that belong to that entry, and the
name is one of these.  Entries are compared as values there; this is as good as
comparing their places in the list, since only the first of equal entries has any
spelling.
-/

namespace TypeSpelling.AliasTable

/-! ## The first entry -/

end TypeSpelling.AliasTable
