import Autodiff.Proofs.Recording.Transpose
import Autodiff.Proofs.Tape.Replay
import Autodiff.Tape.Variables

/-!
# Sweeps without external functions

A sweep over a whole tape without blocks comes to its end, and the slots that it leaves are a
function of the slots that it found.
-/

namespace Autodiff

/-! ## Many statements -/

namespace Statement

variable {F : Type} [Zero F] [Add F] [Mul F] [BEq F]

/-- The effect of statements, from the first to the last forwards and the other way round in
reverse. -/
def effects (d : Direction) (ss : List (Statement F)) (u : Nat → F) : Nat → F :=
  match d with
  | .forward => ss.foldl (fun u x => x.effect .forward u) u
  | .reverse => ss.foldr (fun x u => x.effect .reverse u) u

@[simp] theorem effects_nil (d : Direction) (u : Nat → F) : effects d [] u = u := by
  cases d <;> rfl

theorem effects_forward_cons (x : Statement F) (ss : List (Statement F)) (u : Nat → F) :
    effects .forward (x :: ss) u = effects .forward ss (x.effect .forward u) :=
  rfl

theorem effects_reverse_cons (x : Statement F) (ss : List (Statement F)) (u : Nat → F) :
    effects .reverse (x :: ss) u = x.effect .reverse (effects .reverse ss u) :=
  rfl

theorem effects_forward_append (ss more : List (Statement F)) (u : Nat → F) :
    effects .forward (ss ++ more) u = effects .forward more (effects .forward ss u) :=
  List.foldl_append

theorem effects_reverse_append (ss more : List (Statement F)) (u : Nat → F) :
    effects .reverse (ss ++ more) u = effects .reverse ss (effects .reverse more u) :=
  List.foldr_append

/-! ### Slots that stay as they are -/

/-- An assignment to this identifier, or one with it among its arguments. -/
def Assigns {F : Type} (i : Nat) : Statement F → Prop
  | normal t entries => t = i ∨ ∃ e ∈ entries, e.2 = i
  | _ => False

omit [Zero F] [BEq F] in
theorem scattered_of_ne {entries : List (F × Nat)} {i : Nat} (h : ∀ e ∈ entries, e.2 ≠ i) (bar : F)
    (u : Nat → F) : scattered bar entries u i = u i := by
  induction entries generalizing u with
  | nil => rfl
  | cons e entries ih =>
    have he : i ≠ e.2 := (h e (List.mem_cons_self ..)).symm
    show scattered bar entries (Function.update u e.2 (u e.2 + e.1 * bar)) i = u i
    rw [ih (fun e he => h e (List.mem_cons_of_mem _ he)), Function.update_of_ne he]

theorem effect_of_not_assigns {x : Statement F} {i : Nat} (h : ¬x.Assigns i) (d : Direction)
    (u : Nat → F) : x.effect d u i = u i := by
  cases x with
  | input t => cases d <;> rfl
  | block token largest fixed dynamic => cases d <;> rfl
  | normal t entries =>
    obtain ⟨ht, hentries⟩ := not_or.1 h
    have hti : i ≠ t := fun heq => ht heq.symm
    have hne : ∀ e ∈ entries, e.2 ≠ i := fun e he heq => hentries ⟨e, he, heq⟩
    cases d with
    | forward => exact Function.update_of_ne hti _ u
    | reverse =>
      show (if u t != 0 then scattered (u t) entries (Function.update u t 0)
        else Function.update u t 0) i = u i
      split
      · rw [scattered_of_ne hne, Function.update_of_ne hti]
      · rw [Function.update_of_ne hti]

theorem effects_of_not_assigns {ss : List (Statement F)} {i : Nat} (h : ∀ x ∈ ss, ¬x.Assigns i)
    (d : Direction) (u : Nat → F) : effects d ss u i = u i := by
  induction ss generalizing u with
  | nil => rw [effects_nil]
  | cons x ss ih =>
    have hx := h x (List.mem_cons_self ..)
    have hss : ∀ y ∈ ss, ¬y.Assigns i := fun y hy => h y (List.mem_cons_of_mem _ hy)
    cases d with
    | forward => rw [effects_forward_cons, ih hss, effect_of_not_assigns hx]
    | reverse => rw [effects_reverse_cons, effect_of_not_assigns hx, ih hss]

/-! ### Slots that matter

The slots of a set that holds everything the statements assign settle one another: what lies
outside has no part in them. -/

section Congruence

variable {N : Nat → Prop} {u u' : Nat → F}

omit [Zero F] [BEq F] in
theorem gathered_congr {entries : List (F × Nat)} (h : ∀ e ∈ entries, u e.2 = u' e.2) (acc : F) :
    gathered u entries acc = gathered u' entries acc := by
  induction entries generalizing acc with
  | nil => rfl
  | cons e entries ih =>
    show gathered u entries (acc + e.1 * u e.2) = gathered u' entries (acc + e.1 * u' e.2)
    rw [h e (List.mem_cons_self ..)]
    exact ih (fun e he => h e (List.mem_cons_of_mem _ he)) _

omit [Add F] [Mul F] [Zero F] [BEq F] in
theorem update_congr (h : ∀ i, N i → u i = u' i) (k : Nat) (x : F) :
    ∀ i, N i → Function.update u k x i = Function.update u' k x i := by
  intro i hi
  rw [Function.update_apply, Function.update_apply, h i hi]

omit [Zero F] [BEq F] in
theorem scattered_congr {entries : List (F × Nat)} (hentries : ∀ e ∈ entries, N e.2)
    (h : ∀ i, N i → u i = u' i) (bar : F) :
    ∀ i, N i → scattered bar entries u i = scattered bar entries u' i := by
  induction entries generalizing u u' with
  | nil => exact h
  | cons e entries ih =>
    have he : N e.2 := hentries e (List.mem_cons_self ..)
    apply ih fun e he => hentries e (List.mem_cons_of_mem _ he)
    show ∀ i, N i → Function.update u e.2 (u e.2 + e.1 * bar) i =
      Function.update u' e.2 (u' e.2 + e.1 * bar) i
    rw [h e.2 he]
    exact update_congr h e.2 _

theorem effect_congr {x : Statement F} (hx : ∀ i, x.Assigns i → N i) (d : Direction)
    (h : ∀ i, N i → u i = u' i) : ∀ i, N i → x.effect d u i = x.effect d u' i := by
  cases x with
  | input t => cases d <;> exact h
  | block token largest fixed dynamic => cases d <;> exact h
  | normal t entries =>
    have ht : N t := hx t (Or.inl rfl)
    have hentries : ∀ e ∈ entries, N e.2 := fun e he => hx e.2 (Or.inr ⟨e, he, rfl⟩)
    cases d with
    | forward =>
      show ∀ i, N i → Function.update u t (gathered u entries 0) i =
        Function.update u' t (gathered u' entries 0) i
      rw [gathered_congr fun e he => h e.2 (hentries e he)]
      exact update_congr h t _
    -- Both sides take the same branch, since they hand on the same adjoint.
    | reverse =>
      have hzero := update_congr h t (0 : F)
      simp only [effect, h t ht]
      split
      · exact scattered_congr hentries hzero (u' t)
      · exact hzero

theorem effects_congr {ss : List (Statement F)} (hss : ∀ x ∈ ss, ∀ i, x.Assigns i → N i)
    (d : Direction) (h : ∀ i, N i → u i = u' i) :
    ∀ i, N i → effects d ss u i = effects d ss u' i := by
  induction ss generalizing u u' with
  | nil => simpa only [effects_nil] using h
  | cons x ss ih =>
    have hx := hss x (List.mem_cons_self ..)
    have hrest : ∀ y ∈ ss, ∀ i, y.Assigns i → N i := fun y hy => hss y (List.mem_cons_of_mem _ hy)
    cases d with
    | forward => exact ih hrest (effect_congr hx .forward h)
    | reverse => exact effect_congr hx .reverse (ih hrest h)

end Congruence

/-! ### Sweeps -/

theorem exists_carryAll (g : Registry F) (d : Direction) {ss : List (Statement F)}
    (hplain : ∀ x ∈ ss, x.kind ≠ .block) {v : Adjoints F} (hlt : ∀ x ∈ ss, x.largest < v.size) :
    ∃ w, (Recording.carryAll g d ss v).Yields w ∧ w.size = v.size ∧
      w.slot = effects d ss v.slot := by
  induction ss generalizing v with
  | nil => exact ⟨v, by cases d <;> exact Run.yields_pure v, rfl, (effects_nil d v.slot).symm⟩
  | cons x ss ih =>
    have hx := hplain x (List.mem_cons_self ..)
    have hss : ∀ y ∈ ss, y.kind ≠ .block := fun y hy => hplain y (List.mem_cons_of_mem _ hy)
    have hcarry (d : Direction) {v w : Adjoints F} (h : x.propagate g d v = .ok w) :
        (Recording.carry g d v x).Yields w := by
      intro j
      rw [Recording.outcome_carry_plain hx]
      exact h
    -- Forwards the first statement comes first, in reverse it comes last.
    cases d with
    | forward =>
      obtain ⟨v₁, hpropagate, hsize, hslot⟩ :=
        exists_propagate g .forward hx (hlt x (List.mem_cons_self ..))
      obtain ⟨w, hyields, hsize', hslot'⟩ := ih hss (v := v₁) fun y hy => by
        rw [hsize]
        exact hlt y (List.mem_cons_of_mem _ hy)
      refine ⟨w, ?_, hsize'.trans hsize, ?_⟩
      · rw [Recording.carryAll_forward_cons]
        exact (hcarry .forward hpropagate).bind hyields
      · rw [hslot', hslot, effects_forward_cons]
    | reverse =>
      obtain ⟨v₁, hyields, hsize, hslot⟩ := ih hss fun y hy => hlt y (List.mem_cons_of_mem _ hy)
      obtain ⟨w, hpropagate, hsize', hslot'⟩ :=
        exists_propagate g .reverse hx (v := v₁) (by
          rw [hsize]
          exact hlt x (List.mem_cons_self ..))
      refine ⟨w, ?_, hsize'.trans hsize, ?_⟩
      · rw [Recording.carryAll_reverse_cons]
        exact hyields.bind (hcarry .reverse hpropagate)
      · rw [hslot', hslot, effects_reverse_cons]

end Statement

theorem Statement.dot_effects {F : Type} [CommRing F] [BEq F] [LawfulBEq F] {n : Nat}
    {ss : List (Statement F)} (hlt : ∀ x ∈ ss, x.largest < n) (u v : Nat → F) :
    dot n (effects .reverse ss u) v = dot n u (effects .forward ss v) := by
  induction ss generalizing v with
  | nil => rfl
  | cons x ss ih =>
    rw [effects_reverse_cons, effects_forward_cons, dot_effect (hlt x (List.mem_cons_self ..)),
      ih fun y hy => hlt y (List.mem_cons_of_mem _ hy)]

/-- A seed for `out` alone reaches a slot as the tangent of `out` for a vector that is one in that
slot alone. -/
theorem Statement.effects_reverse_single {F : Type} [CommRing F] [BEq F] [LawfulBEq F]
    {ss : List (Statement F)} {n out i : Nat} (hlt : ∀ x ∈ ss, x.largest < n) (hout : out < n)
    (hi : i < n) :
    effects .reverse ss (Function.update (fun _ => 0) out 1) i =
      effects .forward ss (Function.update (fun _ => 0) i 1) out := by
  rw [← dot_single_right hi (effects .reverse ss _), dot_effects hlt, dot_single_left hout, one_mul]

/-! ## Growing a vector -/

namespace Adjoints

variable {F : Type} [Zero F] {v w : Adjoints F}

/-- New slots are zero, as slots that do not exist are taken to be, and so are those that are
dropped. -/
theorem slot_resize_apply (v : Adjoints F) (n i : Nat) :
    slot (v.resize n) i = if i < n then v.slot i else 0 := by
  by_cases hi : i < n
  · rw [if_pos hi]
    unfold resize slot
    simp only [Array.getD_eq_getD_getElem?, Array.take_eq_extract]
    by_cases hlt : i < v.size
    · have htake : i < (v.extract 0 n).size := by
        rw [Array.size_extract]
        omega
      rw [Array.getElem?_append_left htake, Array.getElem?_extract, if_pos (by omega),
        Nat.zero_add]
    -- Slots behind the end of the vector are zero, whether they are made or not.
    · have htake : (v.extract 0 n).size ≤ i := by
        rw [Array.size_extract]
        omega
      rw [Array.getElem?_append_right htake, Array.getElem?_replicate,
        Array.getElem?_eq_none (Nat.le_of_not_lt hlt)]
      split <;> rfl
  · rw [if_neg hi]
    apply slot_of_size_le
    rw [size_resize]
    omega

theorem slot_resize {n : Nat} (h : v.size ≤ n) : slot (v.resize n) = v.slot := by
  funext i
  rw [slot_resize_apply]
  split
  · rfl
  · rw [slot_of_size_le (by omega)]

omit [Zero F] in
theorem le_ensuredSize (v : Adjoints F) (i : Nat) : v.size ≤ v.ensuredSize i := by
  unfold ensuredSize
  split <;> omega

theorem slot_ensure (v : Adjoints F) (i : Nat) : slot (v.ensure i) = v.slot := by
  unfold ensure
  split
  · rfl
  · exact slot_resize (v.le_ensuredSize i)

/-- A slot that has to exist first can be written. -/
theorem exists_put_ensure (v : Adjoints F) (i : Nat) (x : F) :
    ∃ w, (v.ensure i).put i x = .ok w ∧ w.size = v.ensuredSize i ∧
      w.slot = Function.update v.slot i x := by
  obtain ⟨w, hput, hsize, hslot⟩ := exists_put (v.lt_size_ensure i) x
  rw [size_ensure] at hsize
  rw [slot_ensure] at hslot
  exact ⟨w, hput, hsize, hslot⟩

theorem eq_resize_of_resizeTo [FixedWidth F] {n : Nat} (h : v.resizeTo n = .ok w) :
    w = v.resize n := by
  unfold resizeTo at h
  split at h
  · rw [Fault.bind_eq_ok_iff] at h
    obtain ⟨_, _, h⟩ := h
    cases h
    rfl
  · cases h
    rfl

theorem slot_resizeTo [FixedWidth F] {n : Nat} (hle : v.size ≤ n) (h : v.resizeTo n = .ok w) :
    w.slot = v.slot := by
  rw [eq_resize_of_resizeTo h, slot_resize hle]

theorem eq_ensure_of_reach [FixedWidth F] {i : Nat} (h : v.reach i = .ok w) : w = v.ensure i := by
  unfold reach at h
  split at h
  · cases h
  · rw [Fault.bind_eq_ok_iff] at h
    obtain ⟨_, -, h⟩ := h
    cases h
    rfl

end Adjoints

theorem Tape.slot_create {F : Type} [Zero F] [FixedWidth F] {s : Scheme} {settings : Settings}
    {v : Adjoints F} {t : Tape F s} (h : create settings v = .ok t) :
    t.adjoints.slot = v.slot := by
  unfold create at h
  rw [Fault.bind_eq_ok_iff] at h
  obtain ⟨w, hresize, h⟩ := h
  rw [Fault.bind_eq_ok_iff] at h
  obtain ⟨r, -, h⟩ := h
  cases h
  exact Adjoints.slot_resizeTo (Nat.le_max_right ..) hresize

/-! ## Seeds and gradients -/

namespace Tape

variable {F : Type} [Zero F] {s : Scheme} {t : Tape F s} {identifier : Nat}

theorem exists_seed (h : identifier ≠ passive) (x : F) :
    ∃ v, t.seed identifier x = .ok { t with adjoints := v } ∧
      v.slot = Function.update t.adjoints.slot identifier x := by
  obtain ⟨v, hput, -, hslot⟩ := t.adjoints.exists_put_ensure identifier x
  refine ⟨v, ?_, hslot⟩
  simp only [seed, if_neg h, hput]
  rfl

theorem yields_gradient (h : identifier < t.adjoints.size) :
    (t.gradient identifier).Yields (t.adjoints.slot identifier) := by
  rw [gradient, Array.getElem?_eq_getElem h, Adjoints.slot_of_lt h]
  exact Run.yields_pure _

theorem yields_gradientOf {a : Variable F} {w : Adjoints F}
    (h : a.identifier ≠ passive → a.identifier < w.size) :
    (gradientOf { t with adjoints := w } a).Yields
      (if a.identifier = passive then 0 else w.slot a.identifier) := by
  by_cases ha : a.identifier = passive
  · have hguard : a.isActive = false := by
      rw [Variable.isActive, ha]
      rfl
    rw [if_pos ha, gradientOf, hguard]
    exact Run.yields_pure 0
  · have hguard : a.isActive = true := by simpa [Variable.isActive] using ha
    rw [if_neg ha, gradientOf, hguard]
    exact yields_gradient (t := { t with adjoints := w }) (h ha)

end Tape

/-! ## Whole tapes -/

namespace Tape

variable {F : Type} [Zero F] [Add F] [Mul F] [BEq F] {s : Scheme} {lib : Library F} {t : Tape F s}
  {h : History F}

/-- Where a sweep over the whole tape starts and where it stops. -/
def ends (t : Tape F s) : Direction → Position × Position
  | .forward => (.zero, t.position)
  | .reverse => (t.position, .zero)

theorem evaluateAll_eq (t : Tape F s) (d : Direction) :
    t.evaluateAll d = t.evaluate d (t.ends d).1 (t.ends d).2 .automatic := by
  cases d <;> rfl

theorem exists_evaluateWith (ht : Aligned lib t h) (hplain : ∀ x ∈ h.statements, x.kind ≠ .block)
    (d : Direction) {v : Adjoints F} (hlt : ∀ x ∈ h.statements, x.largest < v.size) :
    ∃ w, (t.evaluateWith d (t.ends d).1 (t.ends d).2 v).Yields w ∧ w.size = v.size ∧
      w.slot = Statement.effects d h.statements v.slot := by
  -- The end of the tape is a position like any that was kept.
  have hmark := ht.mark
  have hzero : (h.mark t.position).Valid .zero 0 := History.valid_zero _
  have hend := History.valid_mark h t.position
  have hle := (hmark.le_iff hzero hend).2 (Nat.zero_le _)
  obtain ⟨hforward, hreverse⟩ := hmark.evaluateWith_agree hzero hend hle v
  have hbetween : (h.mark t.position).between 0 h.statements.length = h.statements :=
    List.take_length
  rw [hbetween] at hforward hreverse
  obtain ⟨w, hyields, hsize, hslot⟩ := Statement.exists_carryAll t.registry d hplain hlt
  refine ⟨w, ?_, hsize, hslot⟩
  cases d with
  | forward => exact hforward.yields hyields
  | reverse => exact hreverse.yields hyields

omit [Add F] [Mul F] [BEq F] in
theorem slot_prepare (t : Tape F s) (management : Management) :
    (t.prepare management).adjoints.slot = t.adjoints.slot := by
  cases management with
  | automatic => exact Adjoints.slot_ensure t.adjoints t.largestIdentifier
  | manual => rfl

omit [Add F] [Mul F] [BEq F] in
theorem size_le_prepare (t : Tape F s) (management : Management) :
    t.adjoints.size ≤ (t.prepare management).adjoints.size := by
  cases management with
  | automatic =>
    show _ ≤ (t.adjoints.ensure t.largestIdentifier).size
    rw [Adjoints.size_ensure]
    exact Adjoints.le_ensuredSize _ _
  | manual => exact Nat.le_refl _

theorem exists_evaluate (ht : Aligned lib t h) (hplain : ∀ x ∈ h.statements, x.kind ≠ .block)
    (d : Direction) (management : Management)
    (hlt : ∀ x ∈ h.statements, x.largest < (t.prepare management).adjoints.size) :
    ∃ w, (t.evaluate d (t.ends d).1 (t.ends d).2 management).Yields { t with adjoints := w } ∧
      w.size = (t.prepare management).adjoints.size ∧
      w.slot = Statement.effects d h.statements t.adjoints.slot := by
  obtain ⟨w, hyields, hsize, hslot⟩ := exists_evaluateWith ht hplain d hlt
  refine ⟨w, ?_, hsize, ?_⟩
  · rw [evaluate_eq]
    exact hyields.bind (Run.yields_pure _)
  · rw [hslot, slot_prepare]

theorem exists_evaluateAll (ht : Aligned lib t h) (hplain : ∀ x ∈ h.statements, x.kind ≠ .block)
    (d : Direction) :
    ∃ w, (t.evaluateAll d).Yields { t with adjoints := w } ∧ t.largestIdentifier < w.size ∧
      w.slot = Statement.effects d h.statements t.adjoints.slot := by
  have henough := Adjoints.lt_size_ensure t.adjoints t.largestIdentifier
  have hlt : ∀ x ∈ h.statements, x.largest < (t.prepare .automatic).adjoints.size := by
    intro x hx
    have hlargest : x.largest ≤ t.recording.largest := ht.spells.largest x hx
    exact Nat.lt_of_le_of_lt (Nat.le_trans hlargest (Nat.le_max_right ..)) henough
  obtain ⟨w, hyields, hsize, hslot⟩ := exists_evaluate ht hplain d .automatic hlt
  rw [evaluateAll_eq]
  exact ⟨w, hyields, hsize ▸ henough, hslot⟩

end Tape

end Autodiff
