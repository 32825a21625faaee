import Autodiff.Proofs.Tape.Aligned

/-!
# Appending to a tape

Appending records the statements of a range one after another; it is refused when a token in the
range does not name the same function on both sides.
-/

namespace Autodiff

namespace Registry

variable {F : Type}

/-- Both registries have the same function behind a token. -/
def Share (g g' : Registry F) (token : Nat) : Prop :=
  ∃ f f', g.get? token = some f ∧ g'.get? token = some f' ∧ f.key = f'.key

theorem Share.symm {g g' : Registry F} {token : Nat} (h : g.Share g' token) : g'.Share g token := by
  obtain ⟨f, f', hf, hf', hkey⟩ := h
  exact ⟨f', f, hf', hf, hkey.symm⟩

theorem Share.eq {g g' : Registry F} {lib : Library F} {token : Nat} (h : g.Share g' token)
    (hg : g.Within lib) (hg' : g'.Within lib) :
    ∃ f, g.get? token = some f ∧ g'.get? token = some f := by
  obtain ⟨f, f', hf, hf', hkey⟩ := h
  have heq : f = f' := by
    rw [← hg token f hf, ← hg' token f' hf', hkey]
  exact ⟨f, hf, heq ▸ hf'⟩

end Registry

namespace Statement

variable {F : Type}

/-- The tokens of a statement name the same functions in both registries. -/
def Shared (g g' : Registry F) (x : Statement F) : Prop :=
  ∀ item ∈ x.tokens, g.Share g' item.1

theorem Readable.shared {g : Registry F} {x : Statement F} (hx : x.Readable g) : x.Shared g g := by
  cases x with
  | input t => exact fun item hitem => absurd hitem List.not_mem_nil
  | normal t entries => exact fun item hitem => absurd hitem List.not_mem_nil
  | block token largest fixed dynamic =>
    obtain ⟨f, hf, -⟩ := hx
    intro item hitem
    rw [List.mem_singleton.1 hitem]
    exact ⟨f, f, hf, hf, rfl⟩

theorem Readable.transfer {g g' : Registry F} {lib : Library F} {x : Statement F}
    (hx : x.Readable g') (hshared : x.Shared g g') (hg : g.Within lib) (hg' : g'.Within lib) :
    x.Readable g := by
  cases x with
  | input t => trivial
  | normal t entries => trivial
  | block token largest fixed dynamic =>
    obtain ⟨f, hf, hrest⟩ := hx
    obtain ⟨f', hours, htheirs⟩ := (hshared (token, largest) (List.mem_singleton_self _)).eq hg hg'
    have heq : f' = f := by
      have hboth := htheirs.symm.trans hf
      exact Option.some.inj hboth
    exact ⟨f, heq ▸ hours, hrest⟩

end Statement

/-! ## Recording many statements -/

namespace Recording

variable {F : Type} {g : Registry F}

theorem yields_foldlM_record {ss : List (Statement F)} (hss : ∀ x ∈ ss, x.Readable g)
    (r : Recording F) (n : Nat) :
    (ss.foldlM (pace g fun (r, n) x => do
        let r ← record r x
        return (r, n + 1)) (r, n)).Yields (ss.foldl append r, n + ss.length) := by
  have hfold : ss.foldl (fun acc x => (acc.1.append x, acc.2 + 1)) (r, n) =
      (ss.foldl append r, n + ss.length) := by
    clear hss
    induction ss generalizing r n with
    | nil => rfl
    | cons x ss ih => rw [List.foldl_cons, ih, List.foldl_cons, List.length_cons, Nat.add_assoc,
        Nat.add_comm 1]
  rw [← hfold]
  exact yields_foldlM_pace hss (fun acc x j => rfl) (r, n)

end Recording

/-- The tape after some statements more, whatever recorded them. -/
def Tape.recordAll {F : Type} {s : Scheme} (t : Tape F s) (ss : List (Statement F)) : Tape F s :=
  { t with recording := ss.foldl Recording.append t.recording }

/-! ## Refusals -/

namespace Tape

open Recording

variable {F : Type} {lib : Library F} {t t' source : Tape F .reuse} {h' : History F}
  {p q : Position} {i k : Nat}

theorem tokenRefusal_eq_none_iff {token : Nat} :
    t.tokenRefusal source token = .ok none ↔ t.registry.Share source.registry token := by
  unfold tokenRefusal Registry.expect Registry.Share
  cases hsource : source.registry.get? token with
  | none => simp [bind, Except.bind]
  | some f' =>
    cases hours : t.registry.get? token with
    | none => simp [bind, Except.bind, pure, Except.pure]
    | some f =>
      by_cases hkey : f.key = f'.key <;> simp [bind, Except.bind, pure, Except.pure, hkey]

theorem tokensRefusal_eq_none_iff {tokens : List Nat} :
    t.tokensRefusal source tokens = .ok none ↔
      ∀ token ∈ tokens, t.registry.Share source.registry token := by
  induction tokens with
  | nil => simp [tokensRefusal]
  | cons token tokens ih =>
    rw [List.forall_mem_cons, ← ih, ← tokenRefusal_eq_none_iff]
    cases htoken : t.tokenRefusal source token with
    | error e => simp [tokensRefusal, htoken, bind, Except.bind]
    | ok refusal =>
      cases refusal <;> simp [tokensRefusal, htoken, bind, Except.bind, pure, Except.pure]

theorem tokensBetween_eq (hsource : Aligned lib source h') (hp : h'.Valid p i)
    (hq : h'.Valid q k) (hik : i ≤ k) :
    source.tokensBetween p q =
      .ok ((((h'.between i k).flatMap Statement.tokens).map fun item => item.1).mergeSort
        fun a b => decide (a ≤ b)) := by
  obtain ⟨before, after, m, n, hspells, rfl, rfl⟩ := hsource.spans hp hq hik
  have hspells' : source.recording.Spells source.settings
      ((before ++ h'.between i k) ++ after) := by
    rwa [List.append_assoc]
  have hbetween := Chunked.between_eq (hspells.contains_cutAfter m).2.2.1
    (hspells'.contains_cutAfter n).2.2.1 (column_endCut_le _ _ before _)
  have hsegment := column_segment hspells.tokens
  rw [tokensBetween, hbetween]
  show Except.ok _ = _
  rw [← hsegment]
  rfl

theorem appendRefusal_eq_none_iff (hsource : Aligned lib source h') (hp : h'.Valid p i)
    (hq : h'.Valid q k) :
    t.appendRefusal source p q = .ok none ↔
      i ≤ k ∧ ∀ x ∈ h'.between i k, x.Shared t.registry source.registry := by
  by_cases hik : i ≤ k
  · have hle : p ≤ q := (hsource.le_iff hp hq).2 hik
    have hcontains : source.Contains p ∧ source.Contains q :=
      ⟨hsource.contains hp, hsource.contains hq⟩
    have hbetween := tokensBetween_eq hsource hp hq hik
    have hrefusal : t.appendRefusal source p q =
        (source.tokensBetween p q >>= t.tokensRefusal source) := by
      rw [appendRefusal, if_neg (by simpa using hle), if_neg (by simpa using hcontains)]
    -- The tokens are checked in ascending order, but all of them are.
    rw [hrefusal, hbetween]
    show t.tokensRefusal source _ = _ ↔ _
    rw [tokensRefusal_eq_none_iff]
    simp only [List.mem_mergeSort, List.mem_map, List.mem_flatMap, Statement.Shared]
    constructor
    · intro hall
      exact ⟨hik, fun x hx item hitem => hall _ ⟨item, ⟨x, hx, hitem⟩, rfl⟩⟩
    · rintro ⟨-, hall⟩ token ⟨item, ⟨x, hx, hitem⟩, rfl⟩
      exact hall x hx item hitem
  · have hle : ¬p ≤ q := fun hle => hik ((hsource.le_iff hp hq).1 hle)
    simp [appendRefusal, hle, hik, pure, Except.pure]

theorem exists_tokensRefusal {tokens : List Nat}
    (h : ∀ token ∈ tokens, ∃ f, source.registry.get? token = some f) :
    ∃ answer, t.tokensRefusal source tokens = .ok answer := by
  induction tokens with
  | nil => exact ⟨none, rfl⟩
  | cons token tokens ih =>
    obtain ⟨f, hf⟩ := h token (List.mem_cons_self ..)
    obtain ⟨answer, hanswer⟩ : ∃ answer, t.tokenRefusal source token = .ok answer := by
      rw [tokenRefusal, Registry.expect_eq_ok_iff.2 hf]
      exact ⟨_, rfl⟩
    rw [tokensRefusal, hanswer]
    cases answer with
    | some refusal => exact ⟨some refusal, rfl⟩
    | none => exact ih fun token htoken => h token (List.mem_cons_of_mem _ htoken)

/-- Every token of a reachable tape is registered there, so the check for differences between two
registries comes to an end. -/
theorem exists_appendRefusal (hsource : Aligned lib source h') (hp : h'.Valid p i)
    (hq : h'.Valid q k) : ∃ answer, t.appendRefusal source p q = .ok answer := by
  rw [appendRefusal]
  by_cases hle : p ≤ q
  · have hik := (hsource.le_iff hp hq).1 hle
    have hcontains := And.intro (hsource.contains hp) (hsource.contains hq)
    rw [if_neg (not_not_intro hle), if_neg (not_not_intro hcontains),
      tokensBetween_eq hsource hp hq hik]
    apply exists_tokensRefusal
    intro token htoken
    simp only [List.mem_mergeSort, List.mem_map, List.mem_flatMap] at htoken
    obtain ⟨item, ⟨x, hx, hitem⟩, rfl⟩ := htoken
    obtain ⟨f, -, hf, -⟩ := (hsource.readable_between i k x hx).shared item hitem
    exact ⟨f, hf⟩
  · rw [if_pos hle]
    exact ⟨_, rfl⟩

/-! ## Appending -/

theorem yields_append_of_refusal {refusal : Refusal}
    (h : t.appendRefusal source p q = .ok (some refusal)) :
    (t.append source p q).Yields (.error refusal) := by
  rw [append, h]
  exact Run.yields_pure _

theorem yields_append (hsource : Aligned lib source h') (hp : h'.Valid p i) (hq : h'.Valid q k)
    (hik : i ≤ k)
    (hshared : ∀ x ∈ h'.between i k, x.Shared t.registry source.registry) :
    (t.append source p q).Yields (.ok (t.recordAll (h'.between i k))) := by
  have hrefusal := (appendRefusal_eq_none_iff hsource hp hq).2 ⟨hik, hshared⟩
  obtain ⟨before, after, m, n, hspells, hpcut, hqcut⟩ := hsource.spans hp hq hik
  have hreadable := hsource.readable_between i k
  rw [append, hrefusal]
  simp only [Run.liftM_ok, pure_bind, appendFrom]
  rw [hpcut, hqcut, walk_forward hspells hreadable]
  exact (yields_foldlM_record hreadable t.recording 0).bind fun j => rfl

theorem append_cases (hsource : Aligned lib source h') {j j' : Journal} (hp : h'.Valid p i)
    (hq : h'.Valid q k) (hr : (t.append source p q).outcome j = (.ok (.ok t'), j')) :
    i ≤ k ∧ (∀ x ∈ h'.between i k, x.Shared t.registry source.registry) ∧
      t' = t.recordAll (h'.between i k) := by
  obtain ⟨answer, hanswer⟩ := exists_appendRefusal (t := t) hsource hp hq
  cases answer with
  | some refusal => cases (yields_append_of_refusal hanswer).eq_of_outcome hr
  | none =>
    obtain ⟨hik, hshared⟩ := (appendRefusal_eq_none_iff hsource hp hq).1 hanswer
    have heq := (yields_append (t := t) hsource hp hq hik hshared).eq_of_outcome hr
    exact ⟨hik, hshared, Except.ok.inj heq⟩

end Tape

/-! ## Histories of longer tapes -/

namespace Aligned

variable {F : Type} {lib : Library F} {t t' source : Tape F .reuse} {h h' : History F}

theorem recordAll (ht : Aligned lib t h) {ss : List (Statement F)}
    (hss : ∀ x ∈ ss, x.Readable t.registry) : Aligned lib (t.recordAll ss) (h.extend ss) := by
  induction ss generalizing t h with
  | nil => rwa [History.extend_nil]
  | cons x ss ih =>
    have hmark : t.supply.mark = t.supply.mark + Scheme.reuse.counterAfter [x] := rfl
    have hx := ht.record (hss x (List.mem_cons_self ..)) hmark
    have hrest := ih hx fun y hy => hss y (List.mem_cons_of_mem _ hy)
    have hextend : (h.extend [x]).extend ss = h.extend (x :: ss) := by
      rw [History.extend, History.extend, History.extend, List.append_assoc]
      rfl
    rwa [hextend] at hrest

/-- What is shared between two tapes can be read back on either. -/
theorem readable_of_shared (ht : Aligned lib t h) (hsource : Aligned lib source h')
    {ss : List (Statement F)} (hss : ∀ x ∈ ss, x.Readable source.registry)
    (hshared : ∀ x ∈ ss, x.Shared t.registry source.registry) :
    ∀ x ∈ ss, x.Readable t.registry :=
  fun x hx => (hss x hx).transfer (hshared x hx) ht.within hsource.within

theorem append (ht : Aligned lib t h) (hsource : Aligned lib source h') {p q : Position}
    {i k : Nat} {j j' : Journal} (hp : h'.Valid p i) (hq : h'.Valid q k)
    (hr : (t.append source p q).outcome j = (.ok (.ok t'), j')) :
    Aligned lib t' (h.extend (h'.between i k)) := by
  obtain ⟨-, hshared, rfl⟩ := Tape.append_cases hsource hp hq hr
  exact ht.recordAll (ht.readable_of_shared hsource (hsource.readable_between i k) hshared)

/-- What a tape recorded last lies between two positions of it, its end before and its end now. -/
theorem exists_recorded (ht : Aligned lib t h) {ss : List (Statement F)}
    (hss : ∀ x ∈ ss, x.Readable t.registry) :
    ∃ (h₁ : History F) (n n₁ : Nat), Aligned lib (t.recordAll ss) h₁ ∧ h₁.Valid t.position n ∧
      h₁.Valid (t.recordAll ss).position n₁ ∧ n ≤ n₁ ∧ h₁.between n n₁ = ss := by
  refine ⟨((h.mark t.position).extend ss).mark (t.recordAll ss).position, h.statements.length,
    (h.statements ++ ss).length, (ht.mark.recordAll hss).mark,
    ((h.valid_mark _).extend ss).mark _, History.valid_mark _ _, ?_, ?_⟩
  · rw [List.length_append]
    exact Nat.le_add_right _ _
  · show ((h.statements ++ ss).take (h.statements ++ ss).length).drop h.statements.length = ss
    rw [List.take_length, List.drop_left' rfl]

end Aligned

theorem History.between_mark {F : Type} (h : History F) (p : Position) (k : Nat) :
    (h.mark p).between k h.statements.length = h.statements.drop k :=
  congrArg (List.drop k) List.take_length

/-- What was recorded last on another tape is appended as a whole. -/
theorem Tape.yields_append_recorded {F : Type} {lib : Library F} {t source : Tape F .reuse}
    {h' : History F} (hsource : Aligned lib source h') {ss : List (Statement F)}
    (hss : ∀ x ∈ ss, x.Readable source.registry)
    (hshared : ∀ x ∈ ss, x.Shared t.registry source.registry) :
    (t.append (source.recordAll ss) source.position (source.recordAll ss).position).Yields
      (.ok (t.recordAll ss)) := by
  obtain ⟨h₁, n, n₁, halign, hstart, hstop, hn, hbetween⟩ := hsource.exists_recorded hss
  rw [← hbetween] at hshared
  have hyields := yields_append (t := t) halign hstart hstop hn hshared
  rwa [hbetween] at hyields

end Autodiff
