import Autodiff.Proofs.Calculus.Dual
import Autodiff.Proofs.Exact
import Autodiff.Proofs.Program.Path

/-!
# Programs on dual numbers

A program is run on dual numbers without any tape.  Both sweeps over the tape of the same program
give its tangents: the slot of an active variable holds its tangent behind a sweep forwards, and the
sweep in reverse is known from there, as it is the transpose.

The invariant is `Tracks`.  It speaks of the slots of active variables only, since what other slots
hold is left over from variables that had them before.
-/

open TrivSqZeroExt

namespace Autodiff

/-! ## Dual numbers in place of variables -/

/-- Whether results keep their tangents, the dual numbers by name, and how many inputs there were
that have a tangent. -/
structure DualMachine (F : Type) where
  active : Bool
  duals : Nat → DualNumber F
  count : Nat

section Run

variable {F : Type} [ExactField F] [Elementary F]

namespace DualMachine

def start : DualMachine F := ⟨true, fun _ => 0, 0⟩

def bind (M : DualMachine F) (name : Nat) (a : DualNumber F) : DualMachine F :=
  { M with duals := Function.update M.duals name a }

/-- What is left of a result when it is stored. -/
def keep (M : DualMachine F) (a : DualNumber F) : DualNumber F :=
  if M.active then a else inl a.fst

/-- Register an input with the tangent that is meant for it. -/
def input (τ : Nat → F) (M : DualMachine F) (name : Nat) (x : F) : DualMachine F :=
  if M.active then { M.bind name (inl x + inr (τ M.count)) with count := M.count + 1 }
  else M.bind name (inl x)

end DualMachine

/-- Run a command on dual numbers. The tangents of the inputs are `τ`, in the order of their
registration. -/
def Command.onDual (τ : Nat → F) (c : Command F) (M : DualMachine F) : DualMachine F :=
  match c with
  | input name x => M.input τ name x
  | constant name x | assignConstant name x => M.bind name (inl x)
  | unary name op a | unaryInto name op a => M.bind name (M.keep (op.onDual (M.duals a) 0))
  | binary name op a b | binaryInto name op a b =>
    M.bind name (M.keep (op.onDual (M.duals a) (M.duals b)))
  | apply target op => M.bind target (M.keep (op.onDual (M.duals target) 0))
  | applyWith target op b =>
    M.bind target (M.keep (op.onDual (M.duals target) (M.duals b)))
  | copy name a | assign name a => M.bind name (M.keep (M.duals a))
  | markOutput _ => M
  | release target => M.bind target 0
  | setActive active => { M with active := active }

/-- Run a program on dual numbers. -/
def dualAll (τ : Nat → F) (cs : List (Command F)) (M : DualMachine F) : DualMachine F :=
  cs.foldl (fun M c => c.onDual τ M) M

/-- The operation of the command is rational and has no zero denominator. -/
def Command.Regular (value : Nat → F) : Command F → Prop
  | unary _ op a | unaryInto _ op a | apply a op => op.Regular (value a) 0
  | binary _ op a b | binaryInto _ op a b | applyWith a op b => op.Regular (value a) (value b)
  | _ => True

instance [DecidableEq F] (value : Nat → F) (c : Command F) : Decidable (c.Regular value) :=
  match c with
  | .unary _ op a | .unaryInto _ op a | .apply a op =>
    inferInstanceAs (Decidable (op.Regular (value a) 0))
  | .binary _ op a b | .binaryInto _ op a b | .applyWith a op b =>
    inferInstanceAs (Decidable (op.Regular (value a) (value b)))
  | .input _ _ | .constant _ _ | .copy _ _ | .assign _ _ | .assignConstant _ _ | .markOutput _
  | .release _ | .setActive _ => .isTrue trivial

/-- What a command comes to on dual numbers: a stored result has the tangent that the derivatives
give. -/
def Primitive.onDual (τ : Nat → F) (p : Primitive F) (M : DualMachine F) : DualMachine F :=
  match p with
  | input name x => M.input τ name x
  | store name x _ operands =>
    M.bind name (inl x + inr
      (if M.active then (operands.map fun e => e.1 * (M.duals e.2).snd).sum else 0))
  | drop name x _ => M.bind name (inl x)
  | output _ => M
  | setActive active => { M with active := active }

omit [Elementary F] in
/-- Storing a dual number is storing its value with the derivatives that make up its tangent. -/
theorem DualMachine.keep_eq {M : DualMachine F} {z : DualNumber F} {x : F}
    {operands : List (F × Nat)} (hx : z.fst = x)
    (hsum : z.snd = (operands.map fun e => e.1 * (M.duals e.2).snd).sum) :
    M.keep z = inl x + inr
      (if M.active then (operands.map fun e => e.1 * (M.duals e.2).snd).sum else 0) := by
  unfold keep
  cases M.active with
  | true =>
    rw [if_pos rfl, if_pos rfl, ← hx, ← hsum]
    exact (inl_fst_add_inr_snd_eq z).symm
  | false => rw [if_neg Bool.false_ne_true, if_neg Bool.false_ne_true, inr_zero, add_zero, hx]

theorem keep_unary {M : DualMachine F} {op : Operation} {a : Nat}
    (h : op.Regular (M.duals a).fst 0) :
    M.keep (op.onDual (M.duals a) 0) = inl (op.value (M.duals a).fst 0) + inr
      (if M.active then
        ([((op.partials (M.duals a).fst 0 (op.value (M.duals a).fst 0)).1, a)].map fun e =>
          e.1 * (M.duals e.2).snd).sum else 0) := by
  apply DualMachine.keep_eq (Operation.fst_onDual h)
  rw [Operation.snd_onDual h, List.map_singleton, List.sum_singleton, snd_zero, mul_zero, add_zero]
  rfl

theorem keep_binary {M : DualMachine F} {op : Operation} {a b : Nat}
    (h : op.Regular (M.duals a).fst (M.duals b).fst) :
    M.keep (op.onDual (M.duals a) (M.duals b)) =
      inl (op.value (M.duals a).fst (M.duals b).fst) + inr
      (if M.active then
        ([((op.partials (M.duals a).fst (M.duals b).fst
            (op.value (M.duals a).fst (M.duals b).fst)).1, a),
          ((op.partials (M.duals a).fst (M.duals b).fst
            (op.value (M.duals a).fst (M.duals b).fst)).2, b)].map fun e =>
          e.1 * (M.duals e.2).snd).sum else 0) := by
  apply DualMachine.keep_eq (Operation.fst_onDual h)
  rw [Operation.snd_onDual h, List.map_cons, List.map_singleton, List.sum_cons, List.sum_singleton]

omit [Elementary F] in
theorem keep_copy (M : DualMachine F) (a : Nat) :
    M.keep (M.duals a) = inl (M.duals a).fst + inr
      (if M.active then ([((1 : F), a)].map fun e => e.1 * (M.duals e.2).snd).sum else 0) := by
  apply DualMachine.keep_eq rfl
  rw [List.map_singleton, List.sum_singleton, one_mul]

theorem Command.onDual_eq (τ : Nat → F) {c : Command F} {M : DualMachine F}
    (h : c.Regular fun x => (M.duals x).fst) :
    c.onDual τ M = (c.primitive fun x => (M.duals x).fst).onDual τ M := by
  cases c with
  | input | constant | assignConstant | markOutput | release | setActive => rfl
  | unary name op a | unaryInto name op a => exact congrArg (M.bind name) (keep_unary h)
  | apply target op => exact congrArg (M.bind target) (keep_unary h)
  | binary name op a b | binaryInto name op a b => exact congrArg (M.bind name) (keep_binary h)
  | applyWith target op b => exact congrArg (M.bind target) (keep_binary h)
  | copy name a | assign name a => exact congrArg (M.bind name) (keep_copy M a)

end Run

/-! ## Slots of active variables -/

open Statement

section Tracks

variable {F : Type} [ExactField F] {s : Scheme} {m m' : Machine F s} {M : DualMachine F}
  {w w' : Nat → F}

/-- The value of a variable with what is in its slot. -/
def Variable.dual (w : Nat → F) (a : Variable F) : DualNumber F :=
  inl a.value + inr (if a.identifier = passive then 0 else w a.identifier)

theorem Variable.fst_dual (w : Nat → F) (a : Variable F) : (a.dual w).fst = a.value := by
  rw [dual, fst_add, fst_inl, fst_inr, add_zero]

theorem Variable.snd_dual (w : Nat → F) (a : Variable F) :
    (a.dual w).snd = if a.identifier = passive then 0 else w a.identifier := by
  rw [dual, snd_add, snd_inl, snd_inr, zero_add]

theorem Variable.dual_constant (w : Nat → F) (x : F) : (constant x).dual w = inl x := by
  rw [dual, if_pos (by rfl : (constant x).identifier = passive), inr_zero, add_zero]
  rfl

/-- `M` runs along with the machine, and the tangents of active variables are in their slots. -/
structure Tracks (w : Nat → F) (m : Machine F s) (M : DualMachine F) : Prop where
  active : M.active = m.tape.active
  count : M.count = m.inputs.length
  duals : ∀ x, M.duals x = (m.variableOf x).dual w

namespace Tracks

theorem value (h : Tracks w m M) : (fun x => (M.duals x).fst) = m.value := by
  funext x
  rw [h.duals, Variable.fst_dual]
  rfl

theorem snd_eq (h : Tracks w m M) {x : Nat} (hx : m.identifier x ≠ passive) :
    (M.duals x).snd = w (m.identifier x) := by
  rw [h.duals, Variable.snd_dual]
  exact if_neg hx

theorem gathered_entries (h : Tracks w m M) (operands : List (F × Nat)) :
    gathered w (Primitive.entries m operands) 0 =
      (operands.map fun e => e.1 * (M.duals e.2).snd).sum := by
  induction operands with
  | nil => rfl
  | cons e operands ih =>
    rw [List.map_cons, List.sum_cons, ← ih]
    by_cases hpassive : m.identifier e.2 = passive
    -- An operand that is left out has no tangent.
    · have hsnd : (M.duals e.2).snd = 0 := by
        rw [h.duals, Variable.snd_dual]
        exact if_pos hpassive
      rw [Primitive.entries_cons_passive hpassive, hsnd, mul_zero, zero_add]
    · rw [Primitive.entries_cons_active hpassive, h.snd_eq hpassive]
      show gathered w _ (0 + e.1 * w (m.identifier e.2)) = _
      rw [gathered_eq_add, zero_add]

theorem bind {M' : DualMachine F} {name : Nat} {a : Variable F} (h : Tracks w m M)
    (hvariable : m'.variableOf = Function.update m.variableOf name a)
    (hduals : M'.duals = Function.update M.duals name (a.dual w'))
    (hactive : M'.active = m'.tape.active) (hcount : M'.count = m'.inputs.length)
    (hothers : ∀ y, y ≠ name → m.identifier y ≠ passive →
      w' (m.identifier y) = w (m.identifier y)) : Tracks w' m' M' := by
  -- Slots that belong to no variable may change as they like.
  refine ⟨hactive, hcount, fun y => ?_⟩
  rw [hvariable, hduals]
  by_cases hy : y = name
  · rw [hy, Function.update_self, Function.update_self]
  · rw [Function.update_of_ne hy, Function.update_of_ne hy, h.duals, Variable.dual, Variable.dual]
    by_cases hpassive : (m.variableOf y).identifier = passive
    · rw [if_pos hpassive, if_pos hpassive]
    · rw [if_neg hpassive, if_neg hpassive]
      exact congrArg (fun x => inl (m.variableOf y).value + inr x) (hothers y hy hpassive).symm

variable [BEq F]

theorem effects_normal (h : Tracks w m M) (hm : m.Owned) {name i : Nat} {x : F}
    {operands : List (F × Nat)} (hi : i ≠ passive)
    (hwhose : i = m.identifier name ∨ ¬m.tape.supply.Lent i)
    (hw : w' = effects .forward [.normal i (Primitive.entries m operands)] w) :
    (⟨x, i⟩ : Variable F).dual w' =
        inl x + inr (operands.map fun e => e.1 * (M.duals e.2).snd).sum ∧
      ∀ y, y ≠ name → m.identifier y ≠ passive → w' (m.identifier y) = w (m.identifier y) := by
  have heffect : w' = Function.update w i (gathered w (Primitive.entries m operands) 0) := hw
  constructor
  · have hself : w' i = (operands.map fun e => e.1 * (M.duals e.2).snd).sum := by
      rw [heffect, Function.update_self, h.gathered_entries]
    rw [Variable.dual, if_neg hi, hself]
  -- The slot was the variable's own or nobody's.
  · intro y hy _
    rw [heffect, Function.update_of_ne (hm.ne_target hi hwhose hy)]

variable [FixedWidth F]

/-- One command on both machines. A new input has to find its tangent in its slot. -/
theorem step {p : Primitive F} {name : Nat} {a : Variable F} {δ : List (Statement F)} {τ : Nat → F}
    (h : Tracks w m M) (hm : m.Owned) (hstep : p.Step m m' name a δ)
    (hinput : ∀ i ∈ δ.flatMap registered, w i = τ M.count) :
    Tracks (effects .forward δ w) m' (p.onDual τ M) := by
  obtain ⟨hchange, hvariable, hinputs, hactive, -⟩ := hstep
  -- Where nothing is recorded, all slots stay.
  have hsame : ∀ y, y ≠ name → m.identifier y ≠ passive → w (m.identifier y) = w (m.identifier y) :=
    fun _ _ _ => rfl
  have hcount (hδ : δ.flatMap registered = []) : M.count = m'.inputs.length := by
    rw [hinputs, hδ, List.append_nil]
    exact h.count
  cases hchange with
  -- Replay does nothing here, so the slot has to hold the tangent already.
  | @input _ i x _ hon _ hne _ =>
    have hguard : M.active = true := h.active.trans hon
    have hslot : w i = τ M.count := hinput _ (List.mem_singleton_self _)
    have hduals : (M.input τ name x).duals = Function.update M.duals name
        ((⟨x, i⟩ : Variable F).dual w) := by
      rw [Variable.dual, if_neg hne, hslot, DualMachine.input, if_pos hguard]
      rfl
    refine h.bind hvariable hduals ?_ ?_ hsame
    · rw [hactive, Primitive.onDual, DualMachine.input, if_pos hguard]
      exact h.active
    · rw [hinputs, Primitive.onDual, DualMachine.input, if_pos hguard, List.length_append,
        ← h.count]
      rfl
  | @passiveInput _ x hoff =>
    have hguard : ¬M.active = true := by
      rw [h.active, hoff]
      exact Bool.false_ne_true
    refine h.bind hvariable ?_ ?_ ?_ hsame
    · rw [Variable.dual_constant, Primitive.onDual, DualMachine.input, if_neg hguard]
      rfl
    · rw [hactive, Primitive.onDual, DualMachine.input, if_neg hguard]
      exact h.active
    · rw [Primitive.onDual, DualMachine.input, if_neg hguard]
      exact hcount rfl
  | @store _ i x _ operands hon _ hi hwhose =>
    obtain ⟨hdual, hothers⟩ := h.effects_normal hm (x := x) hi hwhose rfl
    refine h.bind hvariable ?_ (h.active.trans hactive.symm) (hcount rfl) hothers
    rw [hdual, Primitive.onDual, if_pos (h.active.trans hon)]
    rfl
  | @passiveStore _ x _ operands hoff =>
    refine h.bind hvariable ?_ (h.active.trans hactive.symm) (hcount rfl) hsame
    rw [Variable.dual_constant, Primitive.onDual, ← h.gathered_entries, h.active]
    rcases hoff with hoff | hnone
    · rw [hoff, if_neg Bool.false_ne_true, inr_zero, add_zero]
      rfl
    · rw [hnone]
      show (M.bind _ (inl x + inr (if m.tape.active then 0 else 0))).duals = _
      rw [ite_self, inr_zero, add_zero]
      rfl
  | drop =>
    refine h.bind hvariable ?_ (h.active.trans hactive.symm) (hcount rfl) hsame
    rw [Variable.dual_constant]
    rfl
  -- A copy with the derivative one.
  | @output _ i hon _ hi hnot =>
    obtain ⟨hdual, hothers⟩ :=
      h.effects_normal hm (x := m.value name) hi (Or.inr hnot) rfl
    refine h.bind hvariable ?_ (h.active.trans hactive.symm) (hcount rfl) hothers
    have hname : inl (m.value name) + inr (M.duals name).snd = M.duals name := by
      rw [← h.value]
      exact inl_fst_add_inr_snd_eq _
    rw [hdual, List.map_singleton, List.sum_singleton, one_mul, hname, Function.update_eq_self]
    rfl
  | passiveOutput =>
    refine h.bind hvariable ?_ (h.active.trans hactive.symm) (hcount rfl) hsame
    rw [effects_nil, ← h.duals, Function.update_eq_self]
    rfl
  | setActive =>
    refine h.bind hvariable ?_ hactive.symm (hcount rfl) hsame
    rw [effects_nil, ← h.duals, Function.update_eq_self]
    rfl

end Tracks

/-- The tangents for the input number `k` alone are those of a vector that is one in its slot. -/
theorem update_eq_single {is : List Nat} (his : is.Nodup) {k i : Nat} (hk : is[k]? = some i)
    {k' i' : Nat} (hk' : is[k']? = some i') :
    Function.update (fun _ => (0 : F)) i 1 i' = Pi.single (M := fun _ => F) k 1 k' := by
  by_cases heq : k' = k
  · rw [heq, hk] at hk'
    rw [heq, ← Option.some.inj hk', Function.update_self, Pi.single_eq_same]
  · have hne : i' ≠ i := by
      rintro rfl
      obtain ⟨hlt, -⟩ := List.getElem?_eq_some_iff.1 hk
      exact heq ((List.getElem?_inj hlt his).1 (hk.trans hk'.symm)).symm
    rw [Function.update_of_ne hne, Pi.single_eq_of_ne heq]

variable [BEq F] [FixedWidth F] [Elementary F] {cs : List (Command F)} {ss δs : List (Statement F)}

/-- The slot of an input that is registered next still holds what the sweep started with. -/
theorem Path.slot_of_registered {c : Command F} {m₁ : Machine F s} {name i : Nat} {a : Variable F}
    {δ : List (Statement F)} {u τ : Nat → F}
    (hstep : (c.primitive m.value).Step m m₁ name a δ) (hpath : Path cs m₁ δs m')
    (hm : m.Records ss) (hfresh : c.Fresh m) (hu : ∀ k i, m'.inputs[k]? = some i → u i = τ k)
    (hi : i ∈ δ.flatMap registered) : effects .forward ss u i = τ m.inputs.length := by
  rw [hstep.change.registered_eq] at hi
  have hunnamed : ∀ x ∈ ss, ¬x.Assigns i := fun x hx hassigns =>
    hfresh i hi (Or.inl (hm.holds.assigns hx hassigns))
  rw [effects_of_not_assigns hunnamed]
  apply hu
  rw [hpath.inputs, hstep.inputs, hstep.change.registered_eq, Command.registered_eq_singleton hi,
    List.append_assoc, List.getElem?_append_right (Nat.le_refl _), Nat.sub_self]
  rfl

/-- The vector that a sweep starts with need only have the tangents of the inputs. -/
theorem Path.tracks (h : Path cs m δs m') (hm : m.Records ss)
    (hcs : Throughout (fun c m => c.Regular m.value ∧ c.Fresh m) cs m) {u τ : Nat → F}
    (hu : ∀ k i, m'.inputs[k]? = some i → u i = τ k) (hM : Tracks (effects .forward ss u) m M) :
    Tracks (effects .forward (ss ++ δs) u) m' (dualAll τ cs M) := by
  induction h generalizing ss M with
  | nil =>
    rw [List.append_nil]
    exact hM
  | @cons c cs m m₁ m' name a δ δs hyields hstep hpath ih =>
    obtain ⟨hregular, hfresh⟩ := hcs.1
    have hinput : ∀ i ∈ δ.flatMap registered, effects .forward ss u i = τ M.count := by
      intro i hi
      rw [hM.count]
      exact Path.slot_of_registered hstep hpath hm hfresh hu hi
    have hregular' : c.Regular fun x => (M.duals x).fst := by
      rw [hM.value]
      exact hregular
    have hprimitive : c.onDual τ M = (c.primitive m.value).onDual τ M := by
      rw [Command.onDual_eq τ hregular', hM.value]
    have htracks := hM.step hm.owned hstep hinput
    rw [← effects_forward_append, ← hprimitive] at htracks
    rw [← List.append_assoc]
    exact ih (hstep.records hm) (hcs.2 _ hyields) hu htracks

omit [BEq F] in
/-- No identifier is registered twice. -/
theorem Path.nodup_inputs (h : Path cs m δs m') (hm : m.Records ss)
    (hcs : Throughout (fun c m => c.Fresh m) cs m) (hnodup : m.inputs.Nodup) :
    m'.inputs.Nodup := by
  induction h generalizing ss with
  | nil => exact hnodup
  | @cons c cs m m₁ m' name a δ δs hyields hstep hpath ih =>
    apply ih (hstep.records hm) (hcs.2 _ hyields)
    rw [hstep.inputs, hstep.change.registered_eq]
    rcases c.registered_cases m with hnone | ⟨i, hi⟩
    · rw [hnone, List.append_nil]
      exact hnodup
    · rw [hi]
      refine List.nodup_append.2 ⟨hnodup, List.nodup_singleton i, ?_⟩
      rintro k hk i' hi' rfl
      rw [hm.inputs] at hk
      obtain ⟨x, hx, hregistered⟩ := List.mem_flatMap.1 hk
      rw [← hi] at hi'
      exact hcs.1 k hi' (hm.holds.names hx (Or.inr hregistered))

/-! ## Both sweeps -/

/-- A program for which the identifiers last runs on a new tape.  Both sweeps give its tangents,
wherever the inputs come in and whatever becomes of them, as long as no operation leaves the
rational functions or divides by zero and no input is given an identifier that the recording
names. -/
theorem sweeps_agree_with_dual_numbers [LawfulBEq F] {settings : Settings} {v₀ : Adjoints F}
    {t : Tape F s} (ht : Tape.create settings v₀ = .ok t) (hfits : ∀ c ∈ cs, c.Fits)
    (hids : (Machine.start t).Affords cs)
    (hcs : Throughout (fun c m => c.Regular m.value ∧ c.Fresh m) cs (Machine.start t)) :
    ∃ m : Machine F s, (runAll cs (.start t)).Yields m ∧
      (∀ τ x, ((dualAll τ cs .start).duals x).fst = m.value x ∧
        (m.identifier x = passive → ((dualAll τ cs .start).duals x).snd = 0)) ∧
      (∀ (τ : Nat → F) (v : Adjoints F), (∀ k i, m.inputs[k]? = some i → v.slot i = τ k) →
        ∃ w, (Tape.evaluateAll { m.tape with adjoints := v } .forward).Yields
            { m.tape with adjoints := w } ∧
          ∀ x, m.identifier x ≠ passive →
            w[m.identifier x]? = some ((dualAll τ cs .start).duals x).snd) ∧
      ∀ (v : Adjoints F) (out : Nat), (∀ i, v.slot i = 0) → m.identifier out ≠ passive →
        ∃ t' w, Tape.seedOf { m.tape with adjoints := v } (m.variableOf out) 1 = .ok t' ∧
          (t'.evaluateAll .reverse).Yields { m.tape with adjoints := w } ∧
          ∀ k i, m.inputs[k]? = some i →
            w[i]? = some ((dualAll (Pi.single k 1) cs .start).duals out).snd := by
  have hstart := Machine.records_start ht
  obtain ⟨δs, m, hpath⟩ := hids.exists_path hfits hstart.owned
  have hm := hpath.records hstart
  rw [List.nil_append] at hm
  have hnodup : m.inputs.Nodup :=
    hpath.nodup_inputs hstart (hcs.imp fun _ _ hc => hc.2) List.nodup_nil
  have htracks {u τ : Nat → F} (hu : ∀ k i, m.inputs[k]? = some i → u i = τ k) :
      Tracks (effects .forward δs u) m (dualAll τ cs .start) := by
    apply hpath.tracks hstart hcs hu
    exact ⟨(Tape.create_cases ht).2.2.2.2.symm, rfl, fun x => (Variable.dual_constant _ 0).symm⟩
  refine ⟨m, hpath.yields, fun τ x => ?_, fun τ v hv => ?_, fun v out hv hout => ?_⟩
  -- The values do not depend on the vector, so any one with the tangents in it will do.
  · have hu : ∀ k i, m.inputs[k]? = some i → τ (m.inputs.idxOf i) = τ k := by
      intro k i hk
      obtain ⟨hlt, hget⟩ := List.getElem?_eq_some_iff.1 hk
      rw [← hget, hnodup.idxOf_getElem k hlt]
    have hdual := (htracks (u := fun i => τ (m.inputs.idxOf i)) hu).duals x
    rw [hdual, Variable.fst_dual, Variable.snd_dual]
    exact ⟨rfl, fun hx => if_pos hx⟩
  · obtain ⟨w, hyields, hsize, hslot⟩ := hm.exists_evaluateAll v .forward
    refine ⟨w, hyields, fun x hx => ?_⟩
    have hlt := Nat.lt_of_le_of_lt (hm.identifier_le hx) hsize
    rw [Adjoints.getElem?_eq_slot hlt, hslot, (htracks hv).snd_eq hx]
  · obtain ⟨v', hseed, hslotSeed⟩ := Tape.exists_seed (t := { m.tape with adjoints := v }) hout 1
    obtain ⟨w, hyields, hsize, hslot⟩ := hm.exists_evaluateAll v' .reverse
    refine ⟨_, w, hseed, hyields, fun k i hk => ?_⟩
    -- The sweep in reverse is turned into one forwards, which is known from the dual numbers.
    have hzero : v.slot = fun _ => 0 := funext hv
    have hi := Nat.lt_of_le_of_lt (hm.input_le (List.mem_of_getElem? hk)) hsize
    have hout' := Nat.lt_of_le_of_lt (hm.identifier_le hout) hsize
    have hlt : ∀ x ∈ δs, x.largest < w.size := fun x hx =>
      Nat.lt_of_le_of_lt (hm.largest_le hx) hsize
    rw [Adjoints.getElem?_eq_slot hi, hslot, hslotSeed, hzero]
    show some (effects .reverse δs (Function.update (fun _ => 0) (m.identifier out) 1) i) = _
    rw [effects_reverse_single hlt hout' hi,
      (htracks fun k' i' hk' => update_eq_single hnodup hk hk').snd_eq hout]

end Tracks

/-- The quotient of `a * b` and `a` to the power `-2`. It is given the identifier that `b` gave
up. -/
def quotient : List (Command ℚ) :=
  [.input 0 3, .input 1 2, .binary 2 .mul 0 1, .release 1, .binary 3 .div 2 0,
    .apply 3 (.power (-2))]

/-- It divides by nothing that is zero, and the identifier is used again for no input. -/
theorem exists_tape_quotient : ∃ t : Tape ℚ .reuse, Tape.create ⟨2, 1, 1, 1, 3, true⟩ #[] = .ok t ∧
    Throughout (fun c m => c.Regular m.value ∧ c.Fresh m) quotient (Machine.start t) ∧
    ((runAll quotient (.start t)).outcome {}).1.map (fun m => (m.inputs, m.identifier 3)) =
      .ok ([1, 2], 2) :=
  ⟨_, rfl, throughout_of_check (by decide +kernel), by decide +kernel⟩

/-- Its derivatives by `a = 3` and by `b = 2`. -/
theorem sweeps_agree_with_dual_numbers_of_quotient :
    ∃ (t : Tape ℚ .reuse) (m : Machine ℚ .reuse),
      Tape.create ⟨2, 1, 1, 1, 3, true⟩ #[] = .ok t ∧ (∀ c ∈ quotient, c.Fits) ∧
      Throughout (fun c m => c.Regular m.value ∧ c.Fresh m) quotient (Machine.start t) ∧
      (runAll quotient (.start t)).Yields m ∧ m.inputs = [1, 2] ∧ m.identifier 3 = 2 ∧
      ∃ (t' : Tape ℚ .reuse) (w : Adjoints ℚ),
        Tape.seedOf { m.tape with adjoints := #[] } (m.variableOf 3) 1 = .ok t' ∧
        (t'.evaluateAll .reverse).Yields { m.tape with adjoints := w } ∧
        w[1]? = some (0 : ℚ) ∧ w[2]? = some (-1 / 4 : ℚ) := by
  obtain ⟨t, hcreate, hcs, hmachine⟩ := exists_tape_quotient
  have hfits : ∀ c ∈ quotient, c.Fits := by
    simp [quotient, Command.Fits, Operation.isBinary]
  obtain ⟨m, hrun, -, -, hreverse⟩ := sweeps_agree_with_dual_numbers hcreate hfits
    (Machine.affords_of_create hcreate hfits (by decide)) hcs
  rw [hrun {}] at hmachine
  have hpair : (m.inputs, m.identifier 3) = ([1, 2], 2) := Except.ok.inj hmachine
  obtain ⟨hinputs, hidentifier⟩ := Prod.mk.inj hpair
  have hactive : m.identifier 3 ≠ passive := by
    rw [hidentifier]
    decide
  obtain ⟨t', w, hseed, hsweep, hw⟩ := hreverse #[] 3 (fun _ => rfl) hactive
  refine ⟨t, m, hcreate, hfits, hcs, hrun, hinputs, hidentifier, t', w, hseed, hsweep, ?_, ?_⟩
  · rw [hw 0 1 (by rw [hinputs]; rfl)]
    decide +kernel
  · rw [hw 1 2 (by rw [hinputs]; rfl)]
    decide +kernel

end Autodiff
