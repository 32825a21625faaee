import Autodiff.Proofs.Outcome
import Autodiff.Proofs.Recording.Layout
import Autodiff.Proofs.Stream.Sweeps

/-!
# Walking over a recording

Four cursors follow the statements of a walk, each moved by lengths that come from the statements
read so far.  On a laid out recording every read finds the runs of its own statement, so a walk
between two statements is a fold over the list of the statements in between.
-/

namespace Autodiff

/-! ## Statements that can be read back -/

namespace Statement

variable {F : Type}

/-- The function of a block tells the numbers of its bytes, however often it was asked before. -/
def Readable (g : Registry F) : Statement F → Prop
  | block token _ fixed dynamic => ∃ f, g.get? token = some f ∧ fixed.length = f.fixedSize ∧
      ∀ asked, f.dynamicSize asked (.ofList fixed) = .ok dynamic.length
  | _ => True

/-- The question that reading a block back asks its function. -/
def inquire (g : Registry F) : Statement F → Run Unit
  | block token _ _ _ => do
    let f ← g.expect token
    let _ ← Run.ask f.key
  | _ => return ()

end Statement

theorem Registry.expect_eq_ok_iff {F : Type} {g : Registry F} {token : Nat} {f : External F} :
    g.expect token = .ok f ↔ g.get? token = some f := by
  unfold expect
  cases g.get? token <;> simp

theorem Statement.Readable.yields_inquire {F : Type} {g : Registry F} {x : Statement F}
    (hx : x.Readable g) : (x.inquire g).Yields () := by
  cases x with
  | input t => exact Run.yields_pure ()
  | normal t entries => exact Run.yields_pure ()
  | block token largest fixed dynamic =>
    obtain ⟨f, hf, -⟩ := hx
    apply (Run.yields_liftM (Registry.expect_eq_ok_iff.2 hf)).bind
    intro j
    rw [Run.outcome_bind, Run.outcome_ask]
    rfl

namespace Recording

variable {F : Type} {r : Recording F} {c : Settings} {g : Registry F}

/-! ## One stream -/

section Column

variable {α : Type} {n : Nat} {f : Statement F → List α} {x : Chunked α}
  {before after : List (Statement F)} {s : Statement F}

theorem column_continues_run (h : x = .ofRuns n ((before ++ s :: after).map f)) :
    Chunked.Continues ((Chunked.ofRuns n (before.map f)).pushRun (f s)) x := by
  rw [column_pushRun rfl s]
  apply column_continues
  rw [h, List.append_assoc]
  rfl

theorem column_take_forward (h : x = .ofRuns n ((before ++ s :: after).map f)) :
    x.take .forward (Chunked.ofRuns n (before.map f)).endCut (f s).length =
      .ok (f s, (Chunked.ofRuns n ((before ++ [s]).map f)).endCut) := by
  rw [← column_pushRun rfl s]
  exact Chunked.take_forward_run (column_continues_run h)

theorem column_take_reverse (h : x = .ofRuns n ((before ++ s :: after).map f)) {p : Cut}
    (hp : x.Abuts p (Chunked.ofRuns n ((before ++ [s]).map f)).endCut) :
    ∃ q, x.take .reverse p (f s).length = .ok (f s, q) ∧
      x.Abuts q (Chunked.ofRuns n (before.map f)).endCut := by
  rw [← column_pushRun rfl s] at hp
  exact Chunked.take_reverse_run (column_continues_run h) hp

end Column

/-! ## One statement -/

/-- Taking the runs of `s` in every stream leads the cursors from `k` to `k'`. -/
structure Leads (r : Recording F) (d : Direction) (s : Statement F) (k k' : Cursors) : Prop where
  partials : r.partials.take d k.partials s.entries.length = .ok (s.entries, k'.partials)
  tokens : r.tokens.take d k.tokens s.tokens.length = .ok (s.tokens, k'.tokens)
  fixed : r.fixed.take d k.fixed s.fixed.length = .ok (s.fixed, k'.fixed)
  dynamic : r.dynamic.take d k.dynamic s.dynamic.length = .ok (s.dynamic, k'.dynamic)

theorem take_nil_iff {α : Type} {x : Chunked α} {d : Direction} {p q : Cut} :
    x.take d p ([] : List α).length = .ok ([], q) ↔ p = q := by
  rw [List.length_nil, Chunked.take_zero]
  simp

/-- The lengths that a read goes by are those of the runs of the statement. -/
theorem Leads.read_eq {d : Direction} {s : Statement F} {k k' : Cursors} (h : r.Leads d s k k')
    (hs : s.Readable g) :
    r.read g d k (head s) = do
      s.inquire g
      return (s, k') := by
  obtain ⟨hpartials, htokens, hfixed, hdynamic⟩ := h
  obtain ⟨kp, kt, kf, kd⟩ := k
  obtain ⟨kp', kt', kf', kd'⟩ := k'
  cases s with
  | input t =>
    obtain rfl := take_nil_iff.1 hpartials
    obtain rfl := take_nil_iff.1 htokens
    obtain rfl := take_nil_iff.1 hfixed
    obtain rfl := take_nil_iff.1 hdynamic
    rfl
  | normal t entries =>
    obtain rfl := take_nil_iff.1 htokens
    obtain rfl := take_nil_iff.1 hfixed
    obtain rfl := take_nil_iff.1 hdynamic
    have hrun : r.partials.take d kp entries.length = .ok (entries, kp') := hpartials
    simp only [head, Statement.target, Statement.kind, read, Statement.inquire, hrun, Run.liftM_ok,
      pure_bind]
  | block token largest fixed dynamic =>
    obtain rfl := take_nil_iff.1 hpartials
    obtain ⟨f, hf, hsize, hcount⟩ := hs
    have htoken : r.tokens.takeOne d kt = .ok ((token, largest), kt') := by
      unfold Chunked.takeOne
      rw [show r.tokens.take d kt 1 = .ok ([(token, largest)], kt') from htokens]
      rfl
    have hfixed : r.fixed.take d kf f.fixedSize = .ok (fixed, kf') := by
      rw [← hsize]
      exact hfixed
    have hdynamic : r.dynamic.take d kd dynamic.length = .ok (dynamic, kd') := hdynamic
    simp only [head, Statement.target, Statement.kind, read, Statement.inquire, htoken, hfixed,
      hdynamic, hcount, Registry.expect_eq_ok_iff.2 hf, Run.liftM_ok, pure_bind, bind_assoc]

section Read

variable {before after : List (Statement F)} {s : Statement F}

theorem leads_forward (h : r.Spells c (before ++ s :: after)) (n n' : Nat) :
    r.Leads .forward s (cursors (cutAfter c before n))
      (cursors (cutAfter c (before ++ [s]) n')) where
  partials := column_take_forward h.partials
  tokens := column_take_forward h.tokens
  fixed := column_take_forward h.fixed
  dynamic := column_take_forward h.dynamic

/-- Cursors that stand at a position, up to the boundaries of chunks. -/
structure Abut (r : Recording F) (k : Cursors) (p : Position) : Prop where
  partials : r.partials.Abuts k.partials p.partials
  tokens : r.tokens.Abuts k.tokens p.tokens
  fixed : r.fixed.Abuts k.fixed p.fixed
  dynamic : r.dynamic.Abuts k.dynamic p.dynamic

theorem abut_cursors (r : Recording F) (p : Position) : r.Abut (cursors p) p :=
  ⟨.refl _ _, .refl _ _, .refl _ _, .refl _ _⟩

theorem leads_reverse (h : r.Spells c (before ++ s :: after)) (n n' : Nat) {k : Cursors}
    (hk : r.Abut k (cutAfter c (before ++ [s]) n')) :
    ∃ k', r.Leads .reverse s k k' ∧ r.Abut k' (cutAfter c before n) := by
  obtain ⟨qp, htakep, hqp⟩ := column_take_reverse h.partials hk.partials
  obtain ⟨qt, htaket, hqt⟩ := column_take_reverse h.tokens hk.tokens
  obtain ⟨qf, htakef, hqf⟩ := column_take_reverse h.fixed hk.fixed
  obtain ⟨qd, htaked, hqd⟩ := column_take_reverse h.dynamic hk.dynamic
  exact ⟨⟨qp, qt, qf, qd⟩, ⟨htakep, htaket, htakef, htaked⟩, ⟨hqp, hqt, hqf, hqd⟩⟩

end Read

theorem Abut.finish_eq_ok {k : Cursors} {p : Position} (h : r.Abut k p) (hp : r.Contains p) :
    r.finish k p = .ok () := by
  obtain ⟨-, hpartials, htokens, hfixed, hdynamic⟩ := hp
  have hlt := @Chunked.lt_chunkCount_of_contains
  simp only [finish, h.partials.finish_eq_ok (hlt hpartials), h.tokens.finish_eq_ok (hlt htokens),
    h.fixed.finish_eq_ok (hlt hfixed), h.dynamic.finish_eq_ok (hlt hdynamic), bind, Except.bind]

/-! ## All statements of a range -/

section Range

variable {before ss after : List (Statement F)}

theorem Spells.segment_eq (h : r.Spells c (before ++ (ss ++ after))) (m n : Nat) :
    r.statements.segment (cutAfter c before m).statements
      (cutAfter c (before ++ ss) n).statements = ss.map head := by
  have hsegment := column_segment (f := fun s => [head s]) h.statements
  rw [← List.map_eq_flatMap] at hsegment
  exact hsegment

variable {σ : Type} {step : σ → Statement F → Run σ}

/-- What a walk does with the items of the statement stream. -/
def stride (r : Recording F) (g : Registry F) (d : Direction) (step : σ → Statement F → Run σ)
    (acc : Cursors × σ) (item : Nat × Kind) : Run (Cursors × σ) := do
  let (s, c) ← r.read g d acc.1 item
  let acc ← step acc.2 s
  return (c, acc)

/-- One step of a walk over the plain list of statements. -/
def pace (g : Registry F) (step : σ → Statement F → Run σ) (acc : σ) (s : Statement F) : Run σ := do
  s.inquire g
  step acc s

/-- Reading statements back never stops a walk whose steps all give an answer. -/
theorem yields_foldlM_pace (hss : ∀ s ∈ ss, s.Readable g) {f : σ → Statement F → σ}
    (hstep : ∀ acc s, (step acc s).Yields (f acc s)) (acc : σ) :
    (ss.foldlM (pace g step) acc).Yields (ss.foldl f acc) := by
  induction ss generalizing acc with
  | nil => exact Run.yields_pure acc
  | cons s ss ih =>
    rw [List.foldlM_cons, List.foldl_cons]
    have hs := hss s (List.mem_cons_self ..)
    have hpace : (pace g step acc s).Yields (f acc s) := hs.yields_inquire.bind (hstep acc s)
    exact hpace.bind (ih (fun s hs => hss s (List.mem_cons_of_mem _ hs)) _)

theorem Leads.stride_eq {d : Direction} {s : Statement F} {k k' : Cursors} (h : r.Leads d s k k')
    (hs : s.Readable g) (acc : σ) :
    r.stride g d step (k, acc) (head s) = do
      let acc ← pace g step acc s
      return (k', acc) := by
  simp only [stride, pace, h.read_eq hs, bind_assoc, pure_bind]

theorem foldlM_stride_forward (h : r.Spells c (before ++ (ss ++ after)))
    (hss : ∀ s ∈ ss, s.Readable g) (m n : Nat) (acc : σ) :
    (ss.map head).foldlM (r.stride g .forward step) (cursors (cutAfter c before m), acc) = do
      let acc ← ss.foldlM (pace g step) acc
      return (cursors (cutAfter c (before ++ ss) n), acc) := by
  induction ss generalizing before m acc with
  | nil =>
    rw [List.append_nil]
    rfl
  | cons s ss ih =>
    have hleads := leads_forward h m n
    have hrest : r.Spells c ((before ++ [s]) ++ (ss ++ after)) := by
      rwa [List.append_assoc]
    have hs := hss s (List.mem_cons_self ..)
    rw [List.map_cons, List.foldlM_cons, hleads.stride_eq hs, List.foldlM_cons, bind_assoc,
      bind_assoc]
    refine congrArg _ (funext fun acc => ?_)
    rw [pure_bind, ih hrest (fun s hs => hss s (List.mem_cons_of_mem _ hs)), List.append_assoc]
    rfl

theorem foldlM_stride_reverse (step : σ → Statement F → Run σ)
    (h : r.Spells c (before ++ (ss ++ after))) (hss : ∀ s ∈ ss, s.Readable g) (m n : Nat)
    {k : Cursors} (hk : r.Abut k (cutAfter c (before ++ ss) n)) :
    ∃ k', r.Abut k' (cutAfter c before m) ∧ ∀ acc,
      (ss.reverse.map head).foldlM (r.stride g .reverse step) (k, acc) = do
        let acc ← ss.reverse.foldlM (pace g step) acc
        return (k', acc) := by
  -- The last statement is read first, so the induction takes statements off the end.
  induction ss using List.reverseRecOn generalizing after n k with
  | nil =>
    rw [List.append_nil] at hk
    exact ⟨k, ⟨hk.partials, hk.tokens, hk.fixed, hk.dynamic⟩, fun acc => rfl⟩
  | append_singleton ss s ih =>
    have hwhole : r.Spells c ((before ++ ss) ++ s :: after) := by
      simpa using h
    have hrest : r.Spells c (before ++ (ss ++ s :: after)) := by
      simpa using h
    rw [← List.append_assoc] at hk
    obtain ⟨k₁, hleads, hk₁⟩ := leads_reverse hwhole n n hk
    obtain ⟨k', hk', hfold⟩ := ih hrest (fun s hs => hss s (List.mem_append_left _ hs)) n hk₁
    refine ⟨k', hk', fun acc => ?_⟩
    have hs := hss s (List.mem_append_right _ (List.mem_singleton_self s))
    rw [List.reverse_append, List.reverse_singleton, List.singleton_append, List.map_cons,
      List.foldlM_cons, hleads.stride_eq hs, List.foldlM_cons, bind_assoc, bind_assoc]
    refine congrArg _ (funext fun acc => ?_)
    rw [pure_bind, hfold]

/-- A walk forwards feeds the statements of the range to `step` in recording order. -/
theorem walk_forward (h : r.Spells c (before ++ (ss ++ after))) (hss : ∀ s ∈ ss, s.Readable g)
    (m n : Nat) (acc : σ) :
    r.walk g .forward (cutAfter c before m) (cutAfter c (before ++ ss) n) step acc =
      ss.foldlM (pace g step) acc := by
  have h' : r.Spells c ((before ++ ss) ++ after) := by rwa [List.append_assoc]
  have hend := h'.contains_cutAfter n
  have hfinish := (r.abut_cursors (cutAfter c (before ++ ss) n)).finish_eq_ok hend
  have hfold := r.statements.fold_forward (h.contains_cutAfter m).1 hend.1
    (column_endCut_le _ _ before ss) (r.stride g .forward step)
    (cursors (cutAfter c before m), acc)
  rw [h.segment_eq, foldlM_stride_forward h hss m n] at hfold
  -- The cursors end where the range ends, so the check behind the walk is passed.
  show (r.statements.fold .forward _ _ (r.stride g .forward step) _ >>= fun acc => do
    r.finish acc.1 (cutAfter c (before ++ ss) n)
    return acc.2) = _
  rw [hfold]
  simp only [bind_assoc, pure_bind, hfinish, Run.liftM_ok, bind_pure]

theorem walk_reverse (h : r.Spells c (before ++ (ss ++ after))) (hss : ∀ s ∈ ss, s.Readable g)
    (m n : Nat) (acc : σ) :
    r.walk g .reverse (cutAfter c (before ++ ss) n) (cutAfter c before m) step acc =
      ss.reverse.foldlM (pace g step) acc := by
  have h' : r.Spells c ((before ++ ss) ++ after) := by rwa [List.append_assoc]
  have hstart := h.contains_cutAfter m
  obtain ⟨k, hk, hstride⟩ := foldlM_stride_reverse step h hss m n (r.abut_cursors _)
  have hfinish := hk.finish_eq_ok hstart
  have hfold := r.statements.fold_reverse hstart.1 (h'.contains_cutAfter n).1
    (column_endCut_le _ _ before ss) (r.stride g .reverse step)
    (cursors (cutAfter c (before ++ ss) n), acc)
  rw [h.segment_eq, ← List.map_reverse, hstride] at hfold
  show (r.statements.fold .reverse _ _ (r.stride g .reverse step) _ >>= fun acc => do
    r.finish acc.1 (cutAfter c before m)
    return acc.2) = _
  rw [hfold]
  simp only [bind_assoc, pure_bind, hfinish, Run.liftM_ok, bind_pure]

end Range

end Recording

end Autodiff
