import Autodiff.Proofs.Recording.Walk
import Autodiff.Proofs.Stream.Losses
import Mathlib.Data.List.Forall2

/-!
# Walks with functions that tell other sizes

A recording does not keep the number of dynamic bytes of a block: its function tells that number
anew whenever the block is read.  When the numbers are not those of the recording, a walk that comes
to its end has met the recorded statements with other dynamic bytes, which make up a sublist of
those that were recorded.
-/

namespace Autodiff

open List (Forall₂)

theorem forall₂_of_map_eq {α β : Type} {f : α → β} {xs ys : List α} (h : xs.map f = ys.map f) :
    Forall₂ (fun x y => f x = f y) xs ys := by
  rw [← List.forall₂_eq_eq_eq, List.forall₂_map_left_iff, List.forall₂_map_right_iff] at h
  exact h

theorem map_eq_of_forall₂ {α β : Type} {f : α → β} {xs ys : List α}
    (h : Forall₂ (fun x y => f x = f y) xs ys) : xs.map f = ys.map f := by
  rw [← List.forall₂_eq_eq_eq, List.forall₂_map_left_iff, List.forall₂_map_right_iff]
  exact h

namespace Statement

variable {F : Type} {g : Registry F}

/-- The statement with other dynamic bytes, if it is a block. -/
def withDynamic (x : Statement F) (bytes : List UInt8) : Statement F :=
  match x with
  | block token largest fixed _ => block token largest fixed bytes
  | x => x

/-- The function of a block declares as many fixed bytes as the block has. -/
def Declared (g : Registry F) : Statement F → Prop
  | block token _ fixed _ => ∃ f, g.get? token = some f ∧ fixed.length = f.fixedSize
  | _ => True

/-- The function of a block told the numbers of its bytes, once at least. -/
def Told (g : Registry F) : Statement F → Prop
  | block token _ fixed dynamic => ∃ f, g.get? token = some f ∧ fixed.length = f.fixedSize ∧
      ∃ asked, f.dynamicSize asked (.ofList fixed) = .ok dynamic.length
  | _ => True

theorem length_entries (x : Statement F) :
    x.entries.length = match x.kind with | .normal n => n | _ => 0 := by
  cases x <;> rfl

theorem length_tokens (x : Statement F) :
    x.tokens.length = match x.kind with | .block => 1 | _ => 0 := by
  cases x <;> rfl

/-- With the same token a function declares the same number of fixed bytes. -/
theorem Told.length_fixed_eq {x y : Statement F} (hx : x.Told g) (hy : y.Declared g)
    (h : x.tokens = y.tokens) : x.fixed.length = y.fixed.length := by
  cases x with
  | block token largest fixed dynamic =>
    cases y with
    | block token' largest' fixed' dynamic' =>
      cases h
      obtain ⟨f, hf, hlength, -⟩ := hx
      obtain ⟨f', hf', hlength'⟩ := hy
      rw [hf] at hf'
      cases hf'
      exact hlength.trans hlength'.symm
    | input t => cases h
    | normal t entries => cases h
  | input t => cases y <;> first | rfl | cases h
  | normal t entries => cases y <;> first | rfl | cases h

theorem eq_withDynamic {x y : Statement F} (hhead : Recording.head x = Recording.head y)
    (hentries : x.entries = y.entries) (htokens : x.tokens = y.tokens)
    (hfixed : x.fixed = y.fixed) : x = y.withDynamic x.dynamic := by
  have htarget : x.target = y.target := congrArg Prod.fst hhead
  have hkind : x.kind = y.kind := congrArg Prod.snd hhead
  cases x with
  | input t =>
    cases y with
    | input t' => exact congrArg input htarget
    | normal t' entries => cases hkind
    | block token largest fixed dynamic => cases hkind
  | normal t entries =>
    cases y with
    | input t' => cases hkind
    | normal t' entries' => exact congrArg₂ normal htarget hentries
    | block token largest fixed dynamic => cases hkind
  | block token largest fixed dynamic =>
    cases y with
    | input t' => cases hkind
    | normal t' entries => cases hkind
    | block token' largest' fixed' dynamic' =>
      cases htokens
      obtain rfl : fixed = fixed' := hfixed
      rfl

end Statement

namespace Recording

variable {F : Type} {r : Recording F} {c : Settings} {g : Registry F} {d : Direction}

/-! ## One statement -/

theorem take_of_takeOne {α : Type} {x : Chunked α} {a : α} {p q : Cut}
    (h : x.takeOne d p = .ok (a, q)) : x.take d p 1 = .ok ([a], q) := by
  unfold Chunked.takeOne at h
  obtain ⟨⟨xs, q'⟩, htake, h⟩ := Fault.bind_eq_ok_iff.1 h
  have hlength := Chunked.length_take htake
  match xs, hlength, h with
  | [_], _, h =>
    cases h
    exact htake

/-- Reading a statement back takes the runs of some statement with the same head. -/
theorem exists_leads_of_read {x y : Statement F} {k k' : Cursors} {j j' : Journal}
    (h : (r.read g d k (head y)).outcome j = (.ok (x, k'), j')) :
    head x = head y ∧ x.Told g ∧ r.Leads d x k k' ∧ (x.inquire g).outcome j = (.ok (), j') := by
  cases y with
  | input t =>
    cases h
    exact ⟨rfl, trivial, ⟨rfl, rfl, rfl, rfl⟩, rfl⟩
  | normal t entries =>
    simp only [head, Statement.target, Statement.kind, read, Run.outcome_bind_eq_ok_iff,
      Run.outcome_liftM_eq_ok_iff] at h
    obtain ⟨⟨xs, p⟩, _, ⟨htake, rfl⟩, h⟩ := h
    cases h
    have hlength := Chunked.length_take htake
    rw [← hlength] at htake
    refine ⟨?_, trivial, ⟨htake, rfl, rfl, rfl⟩, rfl⟩
    simp only [head, Statement.target, Statement.kind, hlength]
  | block token largest fixed dynamic =>
    simp only [head, Statement.target, Statement.kind, read, Run.outcome_bind_eq_ok_iff,
      Run.outcome_liftM_eq_ok_iff, Run.outcome_ask] at h
    obtain ⟨⟨⟨token', largest'⟩, p⟩, _, ⟨htoken, rfl⟩, f, _, ⟨hf, rfl⟩, ⟨fixed', q⟩, _,
      ⟨hfixed, rfl⟩, asked, _, hasked, size, _, ⟨hsize, rfl⟩, ⟨dynamic', q'⟩, _,
      ⟨hdynamic, rfl⟩, h⟩ := h
    cases hasked
    cases h
    have hfixedLength := Chunked.length_take hfixed
    have hdynamicLength := Chunked.length_take hdynamic
    rw [← hfixedLength] at hfixed
    rw [← hdynamicLength] at hdynamic hsize
    refine ⟨rfl, ⟨f, Registry.expect_eq_ok_iff.1 hf, hfixedLength, _, hsize⟩,
      ⟨rfl, take_of_takeOne htoken, hfixed, hdynamic⟩, ?_⟩
    simp only [Statement.inquire, hf, Run.liftM_ok, pure_bind, Run.outcome_bind, Run.outcome_ask]
    rfl

/-! ## All statements of a walk -/

/-- Taking the runs of some statements one after another leads the cursors from `k` to `k'`. -/
structure LeadsAll (r : Recording F) (d : Direction) (xs : List (Statement F)) (k k' : Cursors) :
    Prop where
  partials : r.partials.takeAll d (xs.map fun x => x.entries.length) k.partials =
    .ok (xs.map Statement.entries, k'.partials)
  tokens : r.tokens.takeAll d (xs.map fun x => x.tokens.length) k.tokens =
    .ok (xs.map Statement.tokens, k'.tokens)
  fixed : r.fixed.takeAll d (xs.map fun x => x.fixed.length) k.fixed =
    .ok (xs.map Statement.fixed, k'.fixed)
  dynamic : r.dynamic.takeAll d (xs.map fun x => x.dynamic.length) k.dynamic =
    .ok (xs.map Statement.dynamic, k'.dynamic)

theorem leadsAll_nil (r : Recording F) (d : Direction) (k : Cursors) : r.LeadsAll d [] k k :=
  ⟨rfl, rfl, rfl, rfl⟩

theorem Leads.leadsAll_cons {x : Statement F} {xs : List (Statement F)} {k k' k'' : Cursors}
    (h : r.Leads d x k k') (hrest : r.LeadsAll d xs k' k'') : r.LeadsAll d (x :: xs) k k'' where
  partials := Chunked.takeAll_cons_eq_ok_iff.2 ⟨_, _, _, h.partials, hrest.partials, rfl⟩
  tokens := Chunked.takeAll_cons_eq_ok_iff.2 ⟨_, _, _, h.tokens, hrest.tokens, rfl⟩
  fixed := Chunked.takeAll_cons_eq_ok_iff.2 ⟨_, _, _, h.fixed, hrest.fixed, rfl⟩
  dynamic := Chunked.takeAll_cons_eq_ok_iff.2 ⟨_, _, _, h.dynamic, hrest.dynamic, rfl⟩

variable {σ : Type} {step : σ → Statement F → Run σ}

/-- A walk that got through the heads of some statements has met statements with these heads. -/
theorem exists_leadsAll_of_stride {ys : List (Statement F)} {k k' : Cursors} {acc acc' : σ}
    {j j' : Journal}
    (h : ((ys.map head).foldlM (r.stride g d step) (k, acc)).outcome j = (.ok (k', acc'), j')) :
    ∃ xs, xs.map head = ys.map head ∧ (∀ x ∈ xs, x.Told g) ∧ r.LeadsAll d xs k k' ∧
      (xs.foldlM (pace g step) acc).outcome j = (.ok acc', j') := by
  induction ys generalizing k acc j with
  | nil =>
    cases h
    exact ⟨[], rfl, by simp, r.leadsAll_nil d _, rfl⟩
  | cons y ys ih =>
    rw [List.map_cons, List.foldlM_cons, Run.outcome_bind_eq_ok_iff] at h
    obtain ⟨⟨k₁, acc₁⟩, j₁, hstride, hrest⟩ := h
    simp only [stride, Run.outcome_bind_eq_ok_iff] at hstride
    obtain ⟨⟨x, k₂⟩, j₂, hread, acc₂, j₃, hstep, hend⟩ := hstride
    cases hend
    obtain ⟨hhead, htold, hleads, hinquire⟩ := exists_leads_of_read hread
    obtain ⟨xs, hheads, htolds, hleadsAll, hfold⟩ := ih hrest
    refine ⟨x :: xs, by rw [List.map_cons, List.map_cons, hhead, hheads], ?_,
      hleads.leadsAll_cons hleadsAll, ?_⟩
    · rintro z (_ | ⟨_, hz⟩)
      · exact htold
      · exact htolds z hz
    · rw [List.foldlM_cons, Run.outcome_bind_eq_ok_iff]
      refine ⟨_, _, ?_, hfold⟩
      rw [pace, Run.outcome_bind_eq_ok_iff]
      exact ⟨(), j₂, hinquire, hstep⟩

/-! ## One stream -/

section Column

variable {α : Type} {n : Nat} {f : Statement F → List α} {x : Chunked α}
  {before ss after xs : List (Statement F)}

/-- The runs of a stream that a walk over the statements `ss` takes, when it passes the check, are
a sublist of what those statements left there. -/
theorem column_sublist (h : x = .ofRuns n ((before ++ (ss ++ after)).map f))
    (hpass : x.Passes d (Chunked.ofRuns n (before.map f)).endCut
      (Chunked.ofRuns n ((before ++ ss).map f)).endCut (xs.map fun s => (f s).length) (xs.map f)) :
    ((d.order xs).flatMap f).Sublist (ss.flatMap f) := by
  have h' : x = .ofRuns n (((before ++ ss) ++ after).map f) := by
    rwa [List.append_assoc]
  have hsublist := hpass.sublist (column_continues h).contains_endCut
    (column_continues h').contains_endCut
  rwa [column_segment h, Direction.order_map, ← List.flatMap_def] at hsublist

theorem column_flatMap_eq (h : x = .ofRuns n ((before ++ (ss ++ after)).map f))
    (htight : ¬x.Loose (Chunked.ofRuns n (before.map f)).endCut
      (Chunked.ofRuns n ((before ++ ss).map f)).endCut)
    (hpass : x.Passes .forward (Chunked.ofRuns n (before.map f)).endCut
      (Chunked.ofRuns n ((before ++ ss).map f)).endCut (xs.map fun s => (f s).length) (xs.map f)) :
    xs.flatMap f = ss.flatMap f := by
  have h' : x = .ofRuns n (((before ++ ss) ++ after).map f) := by
    rwa [List.append_assoc]
  rw [List.flatMap_def, ← column_segment h]
  exact (Chunked.forall_passes_iff_not_loose (column_continues h).contains_endCut
    (column_continues h').contains_endCut).2 htight _ _ hpass

/-- Runs of the recorded lengths are the recorded runs. -/
theorem forall₂_of_sublist (hsublist : (xs.flatMap f).Sublist (ss.flatMap f))
    (hlength : Forall₂ (fun x y => (f x).length = (f y).length) xs ss) :
    Forall₂ (fun x y => f x = f y) xs ss := by
  have hlengths : (xs.map f).map List.length = (ss.map f).map List.length := by
    rw [List.map_map, List.map_map]
    exact map_eq_of_forall₂ (f := fun x => (f x).length) hlength
  have hflatten : (xs.map f).flatten = (ss.map f).flatten := by
    rw [← List.flatMap_def, ← List.flatMap_def]
    apply hsublist.eq_of_length
    rw [List.flatMap_def, List.flatMap_def, List.length_flatten, List.length_flatten, hlengths]
  exact forall₂_of_map_eq (List.eq_iff_flatten_eq.2 ⟨hflatten, hlengths⟩)

end Column

theorem forall₂_length_fixed {xs ss : List (Statement F)}
    (h : Forall₂ (fun x y : Statement F => x.tokens = y.tokens) xs ss)
    (hxs : ∀ x ∈ xs, x.Told g) (hss : ∀ y ∈ ss, y.Declared g) :
    Forall₂ (fun x y : Statement F => x.fixed.length = y.fixed.length) xs ss := by
  induction h with
  | nil => exact .nil
  | cons hxy _ ih =>
    rw [List.forall_mem_cons] at hxs hss
    exact .cons (hxs.1.length_fixed_eq hss.1 hxy) (ih hxs.2 hss.2)

/-! ## All streams -/

/-- What a walk makes of the statements `ss`: it meets them with as many dynamic bytes as it was
told, and these are some of the recorded ones in their order. -/
structure Misreads (g : Registry F) (ss xs : List (Statement F)) : Prop where
  told : ∀ x ∈ xs, x.Told g
  alike : Forall₂ (fun x y => x = y.withDynamic x.dynamic) xs ss
  sublist : (xs.flatMap Statement.dynamic).Sublist (ss.flatMap Statement.dynamic)

theorem Misreads.eq_iff {ss xs : List (Statement F)} (h : Misreads g ss xs) :
    xs = ss ↔ xs.map (fun x => x.dynamic.length) = ss.map fun x => x.dynamic.length := by
  constructor
  · rintro rfl
    rfl
  · intro hlength
    have hdynamic := forall₂_of_sublist h.sublist (forall₂_of_map_eq hlength)
    have hself (y : Statement F) : y.withDynamic y.dynamic = y := by
      cases y <;> rfl
    rw [← List.forall₂_eq_eq_eq]
    refine List.Forall₂.mp (fun x y hxy halike => ?_) hdynamic h.alike
    rw [halike, hxy, hself]

section Range

variable {before ss after : List (Statement F)}

theorem Spells.fold_eq {τ : Type} (h : r.Spells c (before ++ (ss ++ after))) (d : Direction)
    (m n : Nat) (f : τ → Nat × Kind → Run τ) (acc : τ) :
    r.statements.fold d (d.start (cutAfter c before m) (cutAfter c (before ++ ss) n)).statements
      (d.stop (cutAfter c before m) (cutAfter c (before ++ ss) n)).statements f acc =
        ((d.order ss).map head).foldlM f acc := by
  have h' : r.Spells c ((before ++ ss) ++ after) := by rwa [List.append_assoc]
  have hstart := (h.contains_cutAfter m).1
  have hstop := (h'.contains_cutAfter n).1
  have hle := column_endCut_le c.statementChunk (fun s => [head s]) before ss
  rw [← Direction.order_map, ← h.segment_eq m n]
  cases d with
  | forward => exact r.statements.fold_forward hstart hstop hle f acc
  | reverse => exact r.statements.fold_reverse hstart hstop hle f acc

/-- The runs of the statements `xs` pass the check in every stream. -/
structure Passes (r : Recording F) (d : Direction) (p q : Position) (xs : List (Statement F)) :
    Prop where
  partials : r.partials.Passes d p.partials q.partials (xs.map fun x => x.entries.length)
    (xs.map Statement.entries)
  tokens : r.tokens.Passes d p.tokens q.tokens (xs.map fun x => x.tokens.length)
    (xs.map Statement.tokens)
  fixed : r.fixed.Passes d p.fixed q.fixed (xs.map fun x => x.fixed.length)
    (xs.map Statement.fixed)
  dynamic : r.dynamic.Passes d p.dynamic q.dynamic (xs.map fun x => x.dynamic.length)
    (xs.map Statement.dynamic)

theorem LeadsAll.passes {p q : Position} {xs : List (Statement F)} {k : Cursors}
    (h : r.LeadsAll d xs (cursors (d.start p q)) k) (hfinish : r.finish k (d.stop p q) = .ok ()) :
    r.Passes d p q xs := by
  simp only [finish, Fault.bind_eq_ok_iff] at hfinish
  obtain ⟨_, hpartials, _, htokens, _, hfixed, hdynamic⟩ := hfinish
  cases d <;> exact ⟨⟨_, _, h.partials, hpartials⟩, ⟨_, _, h.tokens, htokens⟩,
    ⟨_, _, h.fixed, hfixed⟩, ⟨_, _, h.dynamic, hdynamic⟩⟩

theorem Passes.misreads (h : r.Spells c (before ++ (ss ++ after))) (hss : ∀ y ∈ ss, y.Declared g)
    {m n : Nat} {xs : List (Statement F)}
    (hpass : r.Passes d (cutAfter c before m) (cutAfter c (before ++ ss) n) xs)
    (hheads : xs.map head = (d.order ss).map head) (htold : ∀ x ∈ xs, x.Told g) :
    Misreads g ss (d.order xs) := by
  have hheads' : Forall₂ (fun x y => head x = head y) (d.order xs) ss := by
    apply forall₂_of_map_eq
    rw [← d.order_map, hheads, d.order_map, d.order_order]
  have hkinds {x y : Statement F} (hxy : head x = head y) : x.kind = y.kind := congrArg Prod.snd hxy
  -- The lengths in the first two streams come with the heads, and the number of fixed bytes with
  -- the tokens; for the dynamic bytes there is only the word of the functions.
  have hentries := forall₂_of_sublist (column_sublist h.partials hpass.partials)
    (hheads'.imp fun x y hxy => by rw [x.length_entries, y.length_entries, hkinds hxy])
  have htokens := forall₂_of_sublist (column_sublist h.tokens hpass.tokens)
    (hheads'.imp fun x y hxy => by rw [x.length_tokens, y.length_tokens, hkinds hxy])
  have htold' : ∀ x ∈ d.order xs, x.Told g := fun x hx => htold x ((d.mem_order xs).1 hx)
  have hfixed := forall₂_of_sublist (column_sublist h.fixed hpass.fixed)
    (forall₂_length_fixed htokens htold' hss)
  refine ⟨htold', ?_, column_sublist h.dynamic hpass.dynamic⟩
  have hboth := List.Forall₂.mp (fun _ _ => And.intro) hheads' hentries
  have hbytes := List.Forall₂.mp (fun _ _ => And.intro) htokens hfixed
  exact List.Forall₂.mp (fun x y h h' => Statement.eq_withDynamic h.1 h.2 h'.1 h'.2) hboth hbytes

variable {σ : Type} {step : σ → Statement F → Run σ}

/-- A walk that comes to its end has done its steps for statements that differ from the recorded
ones in their dynamic bytes alone. -/
theorem exists_misreads_of_walk (h : r.Spells c (before ++ (ss ++ after)))
    (hss : ∀ y ∈ ss, y.Declared g) (m n : Nat) {acc acc' : σ} {j j' : Journal}
    (hwalk : (r.walk g d (d.start (cutAfter c before m) (cutAfter c (before ++ ss) n))
      (d.stop (cutAfter c before m) (cutAfter c (before ++ ss) n)) step acc).outcome j =
        (.ok acc', j')) :
    ∃ xs, r.Passes d (cutAfter c before m) (cutAfter c (before ++ ss) n) (d.order xs) ∧
      Misreads g ss xs ∧ ((d.order xs).foldlM (pace g step) acc).outcome j = (.ok acc', j') := by
  have hfold := h.fold_eq d m n (r.stride g d step)
    (cursors (d.start (cutAfter c before m) (cutAfter c (before ++ ss) n)), acc)
  have hrun : ((r.statements.fold d _ _ (r.stride g d step) _ >>= fun acc => do
      r.finish acc.1 (d.stop (cutAfter c before m) (cutAfter c (before ++ ss) n))
      return acc.2) : Run σ).outcome j = (.ok acc', j') := hwalk
  rw [hfold, Run.outcome_bind_eq_ok_iff] at hrun
  obtain ⟨⟨k, acc₁⟩, j₁, hstrides, hend⟩ := hrun
  simp only [Run.outcome_bind_eq_ok_iff, Run.outcome_liftM_eq_ok_iff, Run.outcome_pure_eq_ok_iff]
    at hend
  obtain ⟨_, _, ⟨hfinish, rfl⟩, rfl, rfl⟩ := hend
  obtain ⟨xs, hheads, htold, hleads, hsteps⟩ := exists_leadsAll_of_stride hstrides
  have hpass := hleads.passes hfinish
  refine ⟨d.order xs, ?_, hpass.misreads h hss hheads htold, ?_⟩
  · rwa [Direction.order_order]
  · rwa [Direction.order_order]

end Range

end Recording

end Autodiff
