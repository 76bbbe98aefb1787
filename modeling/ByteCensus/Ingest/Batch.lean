import ByteCensus.Arbiter

/-!
# Batches of findings

What one pass of disassembly found, by function.  A batch has at most one group of findings for a
function; adding another group puts it in place of the first.
-/

namespace ByteCensus

/-- Findings by function. -/
structure Batch where
  /-- A function with its findings, for each function that has any. -/
  groups : List (FunctionId × List Finding)
  /-- No function has two groups. -/
  nodup_functions : (groups.map (·.1)).Nodup

namespace Batch

def empty : Batch := ⟨[], .nil⟩

instance : Inhabited Batch := ⟨empty⟩

/-- The batch with these findings as those of the function. -/
def add (b : Batch) (function : FunctionId) (findings : List Finding) : Batch where
  groups := (function, findings) :: b.groups.filter (·.1 ≠ function)
  nodup_functions := by
    refine List.nodup_cons.2 ⟨?_, ?_⟩
    · simp
    · exact b.nodup_functions.sublist (List.filter_sublist.map _)

/-- The batch with these groups, the last one for each function. -/
def ofList (groups : List (FunctionId × List Finding)) : Batch :=
  groups.foldl (fun b group => b.add group.1 group.2) empty

/-- The findings of the function. -/
def find? (b : Batch) (function : FunctionId) : Option (List Finding) :=
  (b.groups.find? (·.1 = function)).map (·.2)

def size (b : Batch) : Nat := b.groups.length

/-- A function with findings that the program does not have. -/
def unknown? (b : Batch) (p : Program) : Option FunctionId :=
  (b.groups.map (·.1)).find? fun id => !(p.function? id).isSome

end Batch

end ByteCensus
