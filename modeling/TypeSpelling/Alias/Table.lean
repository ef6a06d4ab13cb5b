import TypeSpelling.Alias.Entry

/-!
# Alias tables

A table answers which entry a spelling belongs to, and which spelling of the
same entry is shortest.  Entries may share spellings; the entry declared first
keeps a shared one, and a later entry is then never reached by it.
-/

namespace TypeSpelling

/-- A table of entries, with every spelling indexed by the first entry that
declares it. -/
structure AliasTable where
  /-- Spellings and their entries in the order of declaration. -/
  bySpelling : List (String × Entry)

namespace AliasTable

/-- The table of a list of entries. -/
def ofEntries (entries : List Entry) : AliasTable :=
  ⟨entries.flatMap fun entry => entry.spellings.map fun spelling => (spelling, entry)⟩

/-- The entry that a spelling belongs to. -/
def resolve? (table : AliasTable) (spelling : String) : Option Entry :=
  table.bySpelling.lookup spelling

/-- The shortest of a list of spellings in bytes, the earliest of several. -/
def shortest? : List String → Option String
  | [] => none
  | first :: rest =>
      match shortest? rest with
      | none => some first
      | some other => some (if first.utf8ByteSize ≤ other.utf8ByteSize then first else other)

/-- The shortest spelling that resolves to the same entry as the name.  A name
that no entry declares stays as it is. -/
def shortestSpelling (table : AliasTable) (name : String) : String :=
  match table.resolve? name with
  | none => name
  | some entry =>
      (shortest? (entry.spellings.filter fun spelling =>
        table.resolve? spelling = some entry)).getD name

end AliasTable

end TypeSpelling
