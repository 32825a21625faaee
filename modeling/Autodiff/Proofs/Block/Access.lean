import Autodiff.Block.Standard
import Autodiff.Proofs.Recording.Slots
import Autodiff.Proofs.Tape.Replay

/-!
# Access to slots

All that an external function can do with a vector is to read and write single slots.  `Access` is
such a function taken apart into its steps, so that it can be said which slots it goes to; a vector
that has those does not let it down.  The identifiers that a block was written with are bounded by
the largest one that the tape remembers of it.
-/

namespace Autodiff

/-! ## Steps on single slots -/

/-- What a function does with a vector, one slot at a time.  How it goes on may depend on what it
has read, and it may fail for a reason of its own. -/
inductive Access (F : Type) where
  | done
  | fail (e : Fault)
  | read (i : Nat) (next : F → Access F)
  | write (i : Nat) (x : F) (next : Access F)
  /-- Ask for the number of slots. -/
  | count (next : Nat → Access F)

namespace Access

variable {F : Type}

def run : Access F → Adjoints F → Except Fault (Adjoints F)
  | done, v => pure v
  | fail e, _ => .error e
  | read i next, v => do
    let x ← v.fetch i
    (next x).run v
  | write i x next, v => do
    let v ← v.put i x
    next.run v
  | count next, v => (next v.size).run v

/-- All slots it goes to are among these; a reason of its own is not about slots. -/
def Within (ids : List Nat) : Access F → Prop
  | done => True
  | fail e => ∀ size i, e ≠ .indexOutside size i
  | read i next => i ∈ ids ∧ ∀ x, (next x).Within ids
  | write i _ next => i ∈ ids ∧ next.Within ids
  | count next => ∀ n, (next n).Within ids

theorem size_run {a : Access F} {v w : Adjoints F} (h : a.run v = .ok w) : w.size = v.size := by
  induction a generalizing v with
  | done =>
    cases h
    rfl
  | fail e => cases h
  | read i next ih =>
    rw [run, Fault.bind_eq_ok_iff] at h
    obtain ⟨x, -, h⟩ := h
    exact ih x h
  | write i x next ih =>
    rw [run, Fault.bind_eq_ok_iff] at h
    obtain ⟨v', hput, h⟩ := h
    rw [ih h]
    unfold Adjoints.put at hput
    split at hput
    · cases hput
      exact Array.size_set _
    · cases hput
  | count next ih => exact ih v.size h

/-- Slots that it does not go to stay as they are. -/
theorem slot_run [Zero F] {a : Access F} {ids : List Nat} {v w : Adjoints F} {i : Nat}
    (ha : a.Within ids) (hi : i ∉ ids) (h : a.run v = .ok w) : w.slot i = v.slot i := by
  induction a generalizing v with
  | done =>
    cases h
    rfl
  | fail e => cases h
  | read k next ih =>
    rw [run, Fault.bind_eq_ok_iff] at h
    obtain ⟨x, -, h⟩ := h
    exact ih x (ha.2 x) h
  | write k x next ih =>
    rw [run, Fault.bind_eq_ok_iff] at h
    obtain ⟨u, hput, h⟩ := h
    have hne : i ≠ k := fun heq => hi (heq ▸ ha.1)
    rw [ih ha.2 h, Adjoints.slot_put hput, Function.update_of_ne hne]
  | count next ih => exact ih v.size (ha v.size) h

/-- On a vector that has the slots no access is outside, wherever the steps before it led. -/
theorem run_ne_indexOutside [Zero F] {a : Access F} {ids : List Nat} {v : Adjoints F}
    (ha : a.Within ids) (hv : ∀ i ∈ ids, i < v.size) (size i : Nat) :
    a.run v ≠ .error (.indexOutside size i) := by
  induction a generalizing v with
  | done => exact nofun
  | fail e => exact fun h => ha size i (Except.error.inj h)
  | read k next ih =>
    rw [run, Adjoints.fetch_of_lt (hv k ha.1)]
    exact ih _ (ha.2 _) hv
  | write k x next ih =>
    obtain ⟨w, hput, hsize, -⟩ := Adjoints.exists_put (hv k ha.1) x
    rw [run, hput]
    exact ih ha.2 fun n hn => hsize.symm ▸ hv n hn
  | count next ih => exact ih v.size (ha v.size) hv

end Access

/-! ## Identifiers in a block -/

/-- The identifiers that a field makes known to the tape. -/
def Field.identifiers : Field → List Nat
  | identifier x => [x.toNat]
  | _ => []

theorem Field.le_mentions {f : Field} {i : Nat} (hi : i ∈ f.identifiers) : i ≤ f.mentions := by
  cases f with
  | identifier x => exact Nat.le_of_eq (List.mem_singleton.1 hi)
  | uint8 | uint16 | uint32 | uint64 | int8 | int16 | int32 | int64 | float32 | float64 | raw =>
    exact absurd hi List.not_mem_nil

theorem Writer.largest_put {w w' : Writer} {f : Field} (h : w.put f = .ok w') :
    w'.largest = max w.largest f.mentions := by
  unfold put at h
  split at h
  · cases h
    rfl
  · cases h

theorem Writer.le_largest_putAll {w w' : Writer} {fs : List Field} (h : w.putAll fs = .ok w') :
    w.largest ≤ w'.largest ∧ ∀ i ∈ fs.flatMap Field.identifiers, i ≤ w'.largest := by
  induction fs generalizing w with
  | nil =>
    cases h
    exact ⟨Nat.le_refl _, fun i hi => absurd hi List.not_mem_nil⟩
  | cons f fs ih =>
    unfold putAll at h
    rw [List.foldlM_cons, Fault.bind_eq_ok_iff] at h
    obtain ⟨w₁, hput, hrest⟩ := h
    obtain ⟨hle, hall⟩ := ih hrest
    have hlargest := Writer.largest_put hput
    refine ⟨by omega, fun i hi => ?_⟩
    rw [List.flatMap_cons, List.mem_append] at hi
    rcases hi with hi | hi
    · have hmentions := Field.le_mentions hi
      omega
    · exact hall i hi

namespace Statement

variable {F : Type}

/-- The block is what is recorded when these fields fill its two views. -/
def Written (x : Statement F) (fs gs : List Field) : Prop :=
  ∃ token n k fixed dynamic, Writer.putAll { capacity := n } fs = .ok fixed ∧
    Writer.putAll { capacity := k } gs = .ok dynamic ∧ newBlock token (some (fixed, dynamic)) = [x]

theorem Written.le_largest {x : Statement F} {fs gs : List Field} (h : x.Written fs gs) :
    ∀ i ∈ (fs ++ gs).flatMap Field.identifiers, i ≤ x.largest := by
  obtain ⟨token, n, k, fixed, dynamic, hfixed, hdynamic, hblock⟩ := h
  cases List.singleton_inj.1 hblock
  intro i hi
  show i ≤ max fixed.largest dynamic.largest
  rw [List.flatMap_append, List.mem_append] at hi
  rcases hi with hi | hi
  · exact Nat.le_trans ((Writer.le_largest_putAll hfixed).2 i hi) (Nat.le_max_left _ _)
  · exact Nat.le_trans ((Writer.le_largest_putAll hdynamic).2 i hi) (Nat.le_max_right _ _)

/-- The function of a block goes to no slots but those of the identifiers that the block was written
with. -/
def Confined (g : Registry F) (x : Statement F) : Prop :=
  ∀ item ∈ x.tokens, ∀ f, g.get? item.1 = some f → ∃ fs gs, x.Written fs gs ∧
    ∀ d, ∃ a : Access F, a.Within ((fs ++ gs).flatMap Field.identifiers) ∧
      ∀ v, f.along d (.ofList x.fixed) (.ofList x.dynamic) v = a.run v

theorem Confined.along_ne_indexOutside [Zero F] {g : Registry F} {token largest : Nat}
    {fixed dynamic : List UInt8} (h : Confined g (.block token largest fixed dynamic))
    {f : External F} (hf : g.get? token = some f) {v : Adjoints F} (hv : largest < v.size)
    (d : Direction) (size i : Nat) :
    f.along d (.ofList fixed) (.ofList dynamic) v ≠ .error (.indexOutside size i) := by
  obtain ⟨fs, gs, hwritten, haccess⟩ := h (token, largest) (List.mem_singleton_self _) f hf
  obtain ⟨a, hwithin, hrun⟩ := haccess d
  have hlt : ∀ k ∈ (fs ++ gs).flatMap Field.identifiers, k < v.size :=
    fun k hk => Nat.lt_of_le_of_lt (hwritten.le_largest k hk) hv
  intro herror
  exact Access.run_ne_indexOutside hwithin hlt size i ((hrun v).symm.trans herror)

end Statement

/-! ## A slot that is moved -/

namespace External

variable {F : Type} [Zero F] [Add F] [IntCast F]

/-- The steps of moving a slot. -/
def moving (d : Direction) (fixed : Reader) : Access F :=
  match endpoints fixed with
  | .error e => .fail e
  | .ok (a, b) =>
    match d with
    | .forward => .read a fun t => .read b fun y => .write b (y + t) (.write a 0 .done)
    | .reverse => .read b fun t => .write b 0 (.read a fun y => .write a (y + t)
        (.count fun n => .write b ((n : Int) : F) .done))

theorem along_transfer (key : Nat) (name : String) (padding : Nat) (d : Direction)
    (fixed dynamic : Reader) (v : Adjoints F) :
    (transfer key name padding).along d fixed dynamic v = (moving d fixed).run v := by
  cases hends : endpoints fixed with
  | error e => cases d <;> simp [along, transfer, moving, hends, Access.run, bind, Except.bind]
  | ok ends =>
    obtain ⟨a, b⟩ := ends
    cases d with
    | forward =>
      simp only [along, transfer, moving, hends, Access.run, Adjoints.add, Adjoints.erase,
        bind_assoc, bind_pure]
      rfl
    | reverse =>
      simp only [along, transfer, moving, hends, Access.run, Adjoints.add, Adjoints.erase,
        Adjoints.pull, bind_assoc, pure_bind, bind_pure]
      rfl

/-- Functions that move a slot, all without padding. -/
def transferring : Library F where
  function key := transfer key "transfer" 0
  key_function _ := rfl
  dynamicSize_eq _ _ _ := rfl
  size_forward h := Access.size_run ((along_transfer _ _ _ .forward _ _ _).symm.trans h)
  size_reverse h := Access.size_run ((along_transfer _ _ _ .reverse _ _ _).symm.trans h)

theorem within_moving {fixed : Reader} {a b : Nat} {ids : List Nat}
    (hends : endpoints fixed = .ok (a, b)) (ha : a ∈ ids) (hb : b ∈ ids) (d : Direction) :
    (moving d fixed : Access F).Within ids := by
  rw [moving, hends]
  -- Every slot that the steps name is one of the two ends.
  cases d with
  | forward => exact ⟨ha, fun _ => ⟨hb, fun _ => ⟨hb, ha, trivial⟩⟩⟩
  | reverse => exact ⟨hb, fun _ => ⟨hb, ha, fun _ => ⟨ha, fun _ => ⟨hb, trivial⟩⟩⟩⟩

theorem confined_transfer {g : Registry F} {token key largest a b : Nat} {fixed : List UInt8}
    {fs : List Field} (hg : g.get? token = some (transfer key "transfer" 0))
    (hwritten : (Statement.block token largest fixed [] : Statement F).Written fs [])
    (hends : endpoints (.ofList fixed) = .ok (a, b)) (ha : a ∈ fs.flatMap Field.identifiers)
    (hb : b ∈ fs.flatMap Field.identifiers) :
    Statement.Confined g (.block token largest fixed []) := by
  intro item hitem f hf
  rw [List.mem_singleton.1 hitem] at hf
  cases hg.symm.trans hf
  refine ⟨fs, [], hwritten, fun d => ⟨moving d (.ofList fixed), ?_, along_transfer key _ 0 d _ _⟩⟩
  rw [List.append_nil]
  exact within_moving hends ha hb d

end External

end Autodiff
