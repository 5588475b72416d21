import Sbunix.Sys.Window

/-!
# Mapping through the loaded tables

The kernel's pointers are addresses like any other: the processor looks them up in the tables that are
loaded, and these are what `map_v_p2` changes.  As long as the window leads to the tables and to the free
frames, the function does what it does with their physical addresses.
-/

namespace Sbunix

open Reasoning

namespace Machine

end Machine

open Machine

/-- The window leads to the frame, whose pointer says which one it is. -/
def Reaches (s : Machine) (f : Nat) : Prop :=
  f < 2 ^ 31 ∧ ∃ e, s.walk (kptr f) = some e ∧ frame e = f

variable {s s' : Machine} {f t v p n k : Nat} {i : Fin 512} {free free' : List Nat}

/-! ## Accesses to a frame -/

theorem Reaches.congr (h : Reaches s f) (hw : s'.walk (kptr f) = s.walk (kptr f)) : Reaches s' f := by
  obtain ⟨hlt, e, he, hf⟩ := h
  exact ⟨hlt, e, hw.trans he, hf⟩

/-- The loaded tables form a tree of frames that are used for nothing else, none of them free. -/
structure WellFormed (s : Machine) (free : List Nat) : Prop where
  tree : IsTree (child allEntries s.mem) 3 s.cr3
  aligned : ∀ t ∈ tableFrames allEntries s.mem s.cr3, 4096 ∣ t
  freeList : FreeList s.alloc free
  free_fresh : ∀ f ∈ framesOf free, f ∉ tableFrames allEntries s.mem s.cr3

end Sbunix
