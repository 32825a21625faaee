import Autodiff.Recording.Streams

/-!
# The content of a recording

`Holds` says which statements a recording holds, whatever the chunks they lie in.  `carryAll` is
replay over such a list of statements, without streams.
-/

namespace Autodiff.Recording

variable {F : Type}

/-- The recording holds exactly these statements, each stream the runs of all of them in order. -/
structure Holds (r : Recording F) (ss : List (Statement F)) : Prop where
  statements : r.statements.toList = ss.map fun s => (s.target, s.kind)
  partials : r.partials.toList = ss.flatMap Statement.entries
  tokens : r.tokens.toList = ss.flatMap Statement.tokens
  fixed : r.fixed.toList = ss.flatMap Statement.fixed
  dynamic : r.dynamic.toList = ss.flatMap Statement.dynamic

/-- Carry tangents through statements from the first to the last, or adjoints from the last to the
first. -/
def carryAll [Zero F] [Add F] [Mul F] [BEq F] (registry : Registry F) (d : Direction)
    (ss : List (Statement F)) (v : Adjoints F) : Run (Adjoints F) :=
  match d with
  | .forward => ss.foldlM (carry registry .forward) v
  | .reverse => ss.reverse.foldlM (carry registry .reverse) v

theorem Holds.append {r : Recording F} {ss : List (Statement F)} (h : r.Holds ss)
    (s : Statement F) : (r.append s).Holds (ss ++ [s]) where
  statements := by simp [Recording.append, Chunked.toList_pushRun, h.statements]
  partials := by simp [Recording.append, Chunked.toList_pushRun, h.partials]
  tokens := by simp [Recording.append, Chunked.toList_pushRun, h.tokens]
  fixed := by simp [Recording.append, Chunked.toList_pushRun, h.fixed]
  dynamic := by simp [Recording.append, Chunked.toList_pushRun, h.dynamic]

theorem holds_clear (r : Recording F) : r.clear.Holds [] where
  statements := r.statements.toList_clear
  partials := r.partials.toList_clear
  tokens := r.tokens.toList_clear
  fixed := r.fixed.toList_clear
  dynamic := r.dynamic.toList_clear

theorem holds_create {settings : Settings} {r : Recording F} (h : create settings = .ok r) :
    r.Holds [] := by
  simp only [create, Fault.bind_eq_ok_iff] at h
  obtain ⟨_, hs, _, hp, _, ht, _, hf, _, hd, hr⟩ := h
  cases hr
  exact ⟨Chunked.toList_create hs, Chunked.toList_create hp, Chunked.toList_create ht,
    Chunked.toList_create hf, Chunked.toList_create hd⟩

theorem create_of_allocate [FixedWidth F] {settings : Settings} {r : Recording F}
    (h : allocate settings = .ok r) : create settings = .ok r := by
  obtain ⟨_, _, hr⟩ := Fault.bind_eq_ok_iff.1 h
  exact hr

end Autodiff.Recording
