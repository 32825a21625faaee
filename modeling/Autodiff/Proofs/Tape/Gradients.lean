import Autodiff.Proofs.Tape.Plain
import Autodiff.Proofs.Tape.Session

/-!
# Access to gradients

The vector of a tape is a map from identifiers to numbers that grows where it is written to.  What a
slot holds is settled by the calls alone: it is what was written there last, if the slot was there
ever since and was not cleared.  A slot that was dropped and comes into being again starts from zero
like any new one.
-/

namespace Autodiff

open Run

/-! ## Calls -/

/-- What can be asked of the slots of a tape. -/
inductive SlotCall (F : Type) where
  | seed (identifier : Nat) (x : F)
  | set (identifier : Nat) (x : F) (checking : Checking)
  | get (identifier : Nat) (checking : Checking)
  | resize (n : Nat)
  | clear

namespace Tape

variable {F : Type} [Zero F] [FixedWidth F] {s : Scheme}

def slotCall (t : Tape F s) : SlotCall F → Run (Answer F × Tape F s)
  | .seed identifier x => do
    let t ← t.seed identifier x
    return (.done, t)
  | .set identifier x checking => do
    match ← t.setGradient identifier x checking with
    | .ok t => return (.done, t)
    | .error refusal => return (.refused refusal, t)
  | .get identifier checking => do
    match ← t.getGradient identifier checking with
    | .ok x => return (.number x, t)
    | .error refusal => return (.refused refusal, t)
  | .resize n => do
    let t ← t.resizeAdjoints n
    return (.done, t)
  | .clear => return (.done, t.clearAllAdjoints)

/-- The tape as some calls leave it, the latest of which comes first. -/
def after (t : Tape F s) : List (SlotCall F) → Run (Tape F s)
  | [] => return t
  | c :: past => do
    let t ← t.after past
    let r ← t.slotCall c
    return r.2

end Tape

namespace SlotCall

variable {F : Type}

/-- The number of slots once the slot `i` of a vector with `n` slots exists. -/
def reached (n i : Nat) : Nat := if i < n then n else max (i + 1) (2 * n)

/-- The number of slots that a call leaves where there were `n`. -/
def sizeAfter (n : Nat) : SlotCall F → Nat
  | seed i _ => if i = passive then n else reached n i
  | set i _ .relaxed => reached n i
  | resize m => m
  | set _ _ .strict | set _ _ .off | get _ _ | clear => n

/-- What a call writes to the slot `i` of a vector with `n` slots. -/
def written [Zero F] (n i : Nat) : SlotCall F → Option F
  | seed j x => if j = i ∧ j ≠ passive then some x else none
  | set j x .relaxed => if j = i then some x else none
  | set j x .strict | set j x .off => if j = i ∧ i < n then some x else none
  | clear => some 0
  | get _ _ | resize _ => none

/-- A call that is turned down: a strict access outside a vector with `n` slots. -/
def Declined (n : Nat) : SlotCall F → Prop
  | set i _ .strict | get i .strict => n ≤ i
  | seed _ _ | set _ _ .relaxed | set _ _ .off | get _ .relaxed | get _ .off | resize _ | clear =>
    False

/-- A vector that grows has a size that some vector can have, and an unchecked access stays within
the vector. -/
def Allowed [FixedWidth F] (n : Nat) : SlotCall F → Prop
  | resize m => m ≤ n ∨ m * FixedWidth.width F ≤ memoryLimit
  | set i _ .off | get i .off => i < n
  | seed _ _ | set _ _ .relaxed | set _ _ .strict | get _ .relaxed | get _ .strict | clear => True

/-- What a call does to the slots. -/
structure Changes [Zero F] (c : SlotCall F) (v w : Adjoints F) : Prop where
  size : w.size = c.sizeAfter v.size
  /-- A slot to which nothing is written keeps its value, and starts from zero if it is new. -/
  slot : ∀ i, i < w.size →
    w.slot i = (c.written v.size i).getD (if v.size ≤ i then 0 else v.slot i)

/-! ## Calls of the past, the latest of which comes first -/

/-- The number of slots where there were `n` before the calls. -/
def sizeAfterAll (n : Nat) : List (SlotCall F) → Nat
  | [] => n
  | c :: past => c.sizeAfter (sizeAfterAll n past)

/-- What was last written to a slot, by clearing or otherwise, since it came into being; zero, if
nothing was, or its value at the start, if it was there at the start already. -/
def latest [Zero F] (v : Adjoints F) (i : Nat) : List (SlotCall F) → F
  | [] => v.slot i
  | c :: past =>
    let n := sizeAfterAll v.size past
    (c.written n i).getD (if n ≤ i then 0 else latest v i past)

/-- Each call was allowed when it came. -/
def Lawful [FixedWidth F] (n : Nat) : List (SlotCall F) → Prop
  | [] => True
  | c :: past => Lawful n past ∧ c.Allowed (sizeAfterAll n past)

end SlotCall

/-- The tape answers like a map that started as `v` and went through the calls of the past. -/
structure Tape.ActsAs {F : Type} [Zero F] [FixedWidth F] {s : Scheme} (t : Tape F s)
    (v : Adjoints F) (past : List (SlotCall F)) : Prop where
  size : t.adjoints.size = SlotCall.sizeAfterAll v.size past
  strictRead : ∀ i, (t.slotCall (.get i .strict)).Yields
    (if i < t.adjoints.size then .number (SlotCall.latest v i past)
      else .refused (.outOfBounds i t.adjoints.size), t)
  relaxedRead : ∀ i, (t.slotCall (.get i .relaxed)).Yields
    (.number (if i < t.adjoints.size then SlotCall.latest v i past
      else if 0 < t.adjoints.size then SlotCall.latest v 0 past else 0), t)
  strictWrite : ∀ i x, t.adjoints.size ≤ i → (t.slotCall (.set i x .strict)).Yields
    (.refused (.outOfBounds i t.adjoints.size), t)

/-- The tape brings the call to its end, the slots change as they should and nothing else does, and
the call is turned down exactly if it is a strict access outside the vector. -/
def Tape.Serves {F : Type} [Zero F] [FixedWidth F] {s : Scheme} (t : Tape F s) (c : SlotCall F) :
    Prop :=
  ∃ a w, (t.slotCall c).Yields (a, { t with adjoints := w }) ∧ c.Changes t.adjoints w ∧
    ((∃ refusal, a = .refused refusal) ↔ c.Declined t.adjoints.size)

/-! ## What calls change -/

namespace SlotCall

variable {F : Type} [Zero F] {c : SlotCall F} {v w : Adjoints F}

/-! ### Writes that go through -/

section Set

variable {n i : Nat} {checking : Checking}

omit [Zero F] in
theorem sizeAfter_set (h : checking = .relaxed ∨ i < n) (x : F) :
    (set i x checking).sizeAfter n = reached n i := by
  cases checking with
  | relaxed => rfl
  | strict => exact (if_pos (h.resolve_left (by decide))).symm
  | off => exact (if_pos (h.resolve_left (by decide))).symm

theorem written_set (h : checking = .relaxed ∨ i < n) (x : F) (k : Nat) :
    (set i x checking).written n k = if i = k then some x else none := by
  have hinside : checking ≠ .relaxed → (i = k ∧ k < n ↔ i = k) := fun hchecking =>
    ⟨And.left, fun hi => ⟨hi, hi ▸ h.resolve_left hchecking⟩⟩
  cases checking with
  | relaxed => rfl
  | strict => simp only [written, hinside (by decide)]
  | off => simp only [written, hinside (by decide)]

omit [Zero F] in
theorem not_declined_set (h : checking = .relaxed ∨ i < n) (x : F) :
    ¬(set i x checking).Declined n := by
  cases checking with
  | relaxed => exact not_false
  | strict => exact Nat.not_le.2 (h.resolve_left (by decide))
  | off => exact not_false

end Set

/-! ### What each call changes -/

/-- A slot that is new was taken to be zero before. -/
theorem changes_of_slot (hsize : w.size = c.sizeAfter v.size)
    (hslot : ∀ i, i < w.size → w.slot i = (c.written v.size i).getD (v.slot i)) :
    c.Changes v w where
  size := hsize
  slot i hi := by
    rw [hslot i hi]
    split
    · next hnew => rw [Adjoints.slot_of_size_le hnew]
    · rfl

theorem changes_unchanged (hsize : c.sizeAfter v.size = v.size)
    (hwritten : ∀ i, c.written v.size i = none) : c.Changes v v := by
  apply changes_of_slot hsize.symm
  intro i _
  rw [hwritten, Option.getD_none]

theorem changes_update {i : Nat} {x : F} (hsize : w.size = c.sizeAfter v.size)
    (hwritten : ∀ k, c.written v.size k = if i = k then some x else none)
    (hslot : w.slot = Function.update v.slot i x) : c.Changes v w := by
  apply changes_of_slot hsize
  intro k _
  rw [hslot, hwritten]
  by_cases hi : i = k
  · rw [if_pos hi, hi, Function.update_self, Option.getD_some]
  · rw [if_neg hi, Function.update_of_ne (Ne.symm hi), Option.getD_none]

theorem changes_get (v : Adjoints F) (i : Nat) (checking : Checking) :
    (get i checking).Changes v v :=
  changes_unchanged rfl fun _ => rfl

theorem changes_resize (v : Adjoints F) (n : Nat) :
    (resize n : SlotCall F).Changes v (v.resize n) := by
  apply changes_of_slot (v.size_resize n)
  intro i hi
  rw [Adjoints.size_resize] at hi
  exact (v.slot_resize_apply n i).trans (if_pos hi)

theorem changes_clear (v : Adjoints F) : (clear : SlotCall F).Changes v v.clear where
  size := v.size_clear
  slot i _ := Adjoints.slot_clear v i

end SlotCall

/-! ## Reading and writing one slot -/

namespace Tape

variable {F : Type} [Zero F] {s : Scheme} {t : Tape F s} {i : Nat}

theorem getGradient_of_lt (h : i < t.adjoints.size) (checking : Checking) :
    t.getGradient i checking = pure (.ok (t.adjoints.slot i)) := by
  unfold getGradient
  rw [Adjoints.getElem?_eq_slot h]

theorem yields_getGradient_relaxed (h : t.adjoints.size ≤ i) :
    (t.getGradient i .relaxed).Yields (.ok (t.adjoints.slot 0)) := by
  rw [getGradient, Array.getElem?_eq_none h]
  intro j
  rfl

theorem getGradient_strict (h : t.adjoints.size ≤ i) :
    t.getGradient i .strict = pure (.error (.outOfBounds i t.adjoints.size)) := by
  rw [getGradient, Array.getElem?_eq_none h]

theorem getGradient_off (h : t.adjoints.size ≤ i) :
    t.getGradient i .off = throw (.unchecked i t.adjoints.size) := by
  rw [getGradient, Array.getElem?_eq_none h]

/-- Inside the vector the policies do not differ. -/
theorem setGradient_of_lt (h : i < t.adjoints.size) (x : F) (checking : Checking) :
    t.setGradient i x checking = t.setGradient i x .relaxed := by
  have hsame : t.adjoints.ensure i = t.adjoints := if_pos h
  have hinside : ¬t.adjoints.size ≤ i := Nat.not_le.2 h
  cases checking with
  | relaxed => rfl
  | strict => simp only [setGradient, modifyGradient, hsame, hinside, and_false, if_false]
  | off => simp only [setGradient, modifyGradient, hsame, hinside, and_false, if_false]

theorem exists_setGradient_relaxed (t : Tape F s) (i : Nat) (x : F) :
    ∃ w, t.setGradient i x .relaxed = .ok (.ok { t with adjoints := w }) ∧
      w.size = t.adjoints.ensuredSize i ∧ w.slot = Function.update t.adjoints.slot i x := by
  have hlt := t.adjoints.lt_size_ensure i
  have hinside : ¬(t.adjoints.ensure i).size ≤ i := Nat.not_le.2 hlt
  obtain ⟨w, hput, hsize, hslot⟩ := t.adjoints.exists_put_ensure i x
  refine ⟨w, ?_, hsize, hslot⟩
  simp only [setGradient, modifyGradient, hinside, and_false, if_false, Adjoints.fetch_of_lt hlt,
    hput]
  rfl

theorem setGradient_strict (h : t.adjoints.size ≤ i) (x : F) :
    t.setGradient i x .strict = .ok (.error (.outOfBounds i t.adjoints.size)) := by
  have houtside : Checking.strict = .strict ∧ t.adjoints.size ≤ i := ⟨rfl, h⟩
  rw [setGradient, modifyGradient, if_pos houtside]
  rfl

theorem setGradient_off (h : t.adjoints.size ≤ i) (x : F) :
    t.setGradient i x .off = .error (.indexOutside t.adjoints.size i) := by
  have hfetch : t.adjoints.fetch i = .error (.indexOutside t.adjoints.size i) := by
    rw [Adjoints.fetch, Array.getElem?_eq_none h]
  have hchecked : ¬(Checking.off = .strict ∧ t.adjoints.size ≤ i) := fun h =>
    absurd h.1 (by decide)
  rw [setGradient, modifyGradient, if_neg hchecked, hfetch]
  rfl

end Tape

/-! ## One call -/

namespace Tape

variable {F : Type} [Zero F] [FixedWidth F] {s : Scheme} {t : Tape F s} {c : SlotCall F} {i : Nat}

theorem exists_slotCall_seed (t : Tape F s) (i : Nat) (x : F) :
    ∃ w, (t.slotCall (.seed i x)).Yields (.done, { t with adjoints := w }) ∧
      (SlotCall.seed i x).Changes t.adjoints w := by
  by_cases hi : i = passive
  · have hseed : t.seed i x = .ok t := by rw [seed, if_pos hi]; rfl
    refine ⟨t.adjoints, (yields_liftM hseed).bind (yields_pure _), ?_⟩
    apply SlotCall.changes_unchanged
    · exact if_pos hi
    · intro k
      exact if_neg fun h => h.2 hi
  · obtain ⟨w, hput, hsize, hslot⟩ := t.adjoints.exists_put_ensure i x
    have hseed : t.seed i x = .ok { t with adjoints := w } := by
      simp only [seed, if_neg hi, hput]
      rfl
    refine ⟨w, (yields_liftM hseed).bind (yields_pure _), ?_⟩
    apply SlotCall.changes_update _ _ hslot
    · rw [hsize, SlotCall.sizeAfter, if_neg hi]
      rfl
    · intro k
      simp only [SlotCall.written, ne_eq, hi, not_false_eq_true, and_true]

theorem exists_slotCall_set {checking : Checking} (h : checking = .relaxed ∨ i < t.adjoints.size)
    (x : F) :
    ∃ w, (t.slotCall (.set i x checking)).Yields (.done, { t with adjoints := w }) ∧
      (SlotCall.set i x checking).Changes t.adjoints w := by
  obtain ⟨w, hrelaxed, hsize, hslot⟩ := t.exists_setGradient_relaxed i x
  have hset : t.setGradient i x checking = .ok (.ok { t with adjoints := w }) := by
    rcases h with rfl | h
    · exact hrelaxed
    · exact (setGradient_of_lt h x checking).trans hrelaxed
  refine ⟨w, (yields_liftM hset).bind (yields_pure _), ?_⟩
  exact SlotCall.changes_update (hsize.trans (SlotCall.sizeAfter_set h x).symm)
    (SlotCall.written_set h x) hslot

theorem yields_slotCall_set_strict (h : t.adjoints.size ≤ i) (x : F) :
    (t.slotCall (.set i x .strict)).Yields (.refused (.outOfBounds i t.adjoints.size), t) :=
  (yields_liftM (setGradient_strict h x)).bind (yields_pure _)

theorem yields_slotCall_get (h : i < t.adjoints.size) (checking : Checking) :
    (t.slotCall (.get i checking)).Yields (.number (t.adjoints.slot i), t) := by
  rw [slotCall, getGradient_of_lt h]
  exact yields_pure _

theorem yields_slotCall_get_relaxed (h : t.adjoints.size ≤ i) :
    (t.slotCall (.get i .relaxed)).Yields (.number (t.adjoints.slot 0), t) :=
  (yields_getGradient_relaxed h).bind (yields_pure _)

theorem yields_slotCall_get_strict (h : t.adjoints.size ≤ i) :
    (t.slotCall (.get i .strict)).Yields (.refused (.outOfBounds i t.adjoints.size), t) := by
  rw [slotCall, getGradient_strict h]
  exact yields_pure _

theorem resizeAdjoints_eq (t : Tape F s) (n : Nat) :
    t.resizeAdjoints n =
      if n ≤ t.adjoints.size ∨ n * FixedWidth.width F ≤ memoryLimit then
        .ok { t with adjoints := t.adjoints.resize n }
      else .error .tooLarge := by
  unfold resizeAdjoints Adjoints.resizeTo Adjoints.checkSize
  by_cases hn : t.adjoints.size < n
  · rw [if_pos hn]
    by_cases hfits : n * FixedWidth.width F ≤ memoryLimit
    · rw [if_pos hfits, if_pos (Or.inr hfits)]
      rfl
    · rw [if_neg hfits, if_neg (not_or.2 ⟨Nat.not_le.2 hn, hfits⟩)]
      rfl
  · rw [if_neg hn, if_pos (Or.inl (Nat.le_of_not_lt hn))]
    rfl

theorem serves_seed (t : Tape F s) (i : Nat) (x : F) : t.Serves (.seed i x) := by
  obtain ⟨w, hyields, hchanges⟩ := t.exists_slotCall_seed i x
  exact ⟨_, w, hyields, hchanges, by simp [SlotCall.Declined]⟩

theorem serves_set {checking : Checking} {x : F}
    (h : (SlotCall.set i x checking).Allowed t.adjoints.size) : t.Serves (.set i x checking) := by
  by_cases hopen : checking = .relaxed ∨ i < t.adjoints.size
  · obtain ⟨w, hyields, hchanges⟩ := t.exists_slotCall_set hopen x
    exact ⟨_, w, hyields, hchanges, by simp [SlotCall.not_declined_set hopen]⟩
  · obtain ⟨hchecking, hi⟩ := not_or.1 hopen
    have hi := Nat.le_of_not_lt hi
    cases checking with
    | relaxed => exact absurd rfl hchecking
    | strict =>
      refine ⟨_, t.adjoints, yields_slotCall_set_strict hi x, ?_, by simpa [SlotCall.Declined]⟩
      apply SlotCall.changes_unchanged rfl
      intro k
      exact if_neg fun hk => by omega
    | off => exact absurd h (Nat.not_lt.2 hi)

theorem serves_get {checking : Checking}
    (h : (SlotCall.get i checking : SlotCall F).Allowed t.adjoints.size) :
    t.Serves (.get i checking) := by
  have hchanges := SlotCall.changes_get t.adjoints i checking
  by_cases hi : i < t.adjoints.size
  · refine ⟨_, t.adjoints, yields_slotCall_get hi checking, hchanges, ?_⟩
    cases checking <;> simp [SlotCall.Declined, hi]
  · have hi := Nat.le_of_not_lt hi
    cases checking with
    | relaxed =>
      exact ⟨_, t.adjoints, yields_slotCall_get_relaxed hi, hchanges, by simp [SlotCall.Declined]⟩
    | strict =>
      exact ⟨_, t.adjoints, yields_slotCall_get_strict hi, hchanges, by simpa [SlotCall.Declined]⟩
    | off => exact absurd h (Nat.not_lt.2 hi)

theorem serves_resize {n : Nat}
    (h : n ≤ t.adjoints.size ∨ n * FixedWidth.width F ≤ memoryLimit) : t.Serves (.resize n) := by
  have hresize := (t.resizeAdjoints_eq n).trans (if_pos h)
  exact ⟨_, _, (yields_liftM hresize).bind (yields_pure _), SlotCall.changes_resize t.adjoints n,
    by simp [SlotCall.Declined]⟩

theorem serves_clear (t : Tape F s) : t.Serves .clear :=
  ⟨_, _, yields_pure _, SlotCall.changes_clear t.adjoints, by simp [SlotCall.Declined]⟩

theorem serves_of_allowed (h : c.Allowed t.adjoints.size) : t.Serves c := by
  cases c with
  | seed i x => exact t.serves_seed i x
  | set i x checking => exact serves_set h
  | get i checking => exact serves_get h
  | resize n => exact serves_resize h
  | clear => exact t.serves_clear

/-- Only a call that is not allowed faults. -/
theorem allowed_of_slotCall {r : Answer F × Tape F s} {j j' : Journal}
    (h : (t.slotCall c).outcome j = (.ok r, j')) : c.Allowed t.adjoints.size := by
  cases c with
  | seed i x => trivial
  | set i x checking =>
    cases checking with
    | relaxed => trivial
    | strict => trivial
    | off =>
      by_contra hi
      rw [slotCall, setGradient_off (Nat.le_of_not_lt hi)] at h
      cases h
  | get i checking =>
    cases checking with
    | relaxed => trivial
    | strict => trivial
    | off =>
      by_contra hi
      rw [slotCall, getGradient_off (Nat.le_of_not_lt hi)] at h
      cases h
  | resize n =>
    by_contra hn
    rw [slotCall, (t.resizeAdjoints_eq n).trans (if_neg hn)] at h
    cases h
  | clear => trivial

theorem serves_iff (t : Tape F s) (c : SlotCall F) : t.Serves c ↔ c.Allowed t.adjoints.size := by
  constructor
  · rintro ⟨a, w, hyields, -, -⟩
    obtain ⟨j', h⟩ := hyields.exists_outcome {}
    exact allowed_of_slotCall h
  · exact serves_of_allowed

/-! ## Sequences of calls -/

variable {past : List (SlotCall F)}

theorem exists_after (h : SlotCall.Lawful t.adjoints.size past) :
    ∃ w, (t.after past).Yields { t with adjoints := w } ∧
      w.size = SlotCall.sizeAfterAll t.adjoints.size past ∧
      ∀ i, i < w.size → w.slot i = SlotCall.latest t.adjoints i past := by
  induction past with
  | nil => exact ⟨t.adjoints, yields_pure _, rfl, fun _ _ => rfl⟩
  | cons c past ih =>
    obtain ⟨hpast, hallowed⟩ := h
    obtain ⟨w, hyields, hsize, hslot⟩ := ih hpast
    rw [← hsize] at hallowed
    obtain ⟨a, w', hcall, hchanges, -⟩ :=
      serves_of_allowed (t := { t with adjoints := w }) hallowed
    refine ⟨w', hyields.bind (hcall.bind (yields_pure _)), ?_, fun i hi => ?_⟩
    · rw [hchanges.size, hsize]
      rfl
    -- What a slot held before counts only if it was there before.
    · rw [hchanges.slot i hi, hsize, SlotCall.latest]
      split
      · rfl
      · next hold => rw [hslot i (by omega)]

theorem lawful_of_after {t' : Tape F s} {j j' : Journal}
    (h : (t.after past).outcome j = (.ok t', j')) : SlotCall.Lawful t.adjoints.size past := by
  induction past generalizing t' j j' with
  | nil => trivial
  | cons c past ih =>
    rw [after, outcome_bind_eq_ok_iff] at h
    obtain ⟨u, k, hpast, h⟩ := h
    rw [outcome_bind_eq_ok_iff] at h
    obtain ⟨r, _, hcall, -⟩ := h
    have hlawful := ih hpast
    -- The calls before were allowed, so the tape that they left has the size that they say.
    obtain ⟨w, hyields, hsize, -⟩ := exists_after hlawful
    obtain rfl := hyields.eq_of_outcome hpast
    have hallowed := allowed_of_slotCall hcall
    rw [hsize] at hallowed
    exact ⟨hlawful, hallowed⟩

/-- Reads and refused writes depend on the size of the vector and on what its slots hold. -/
theorem actsAs_of_latest {v : Adjoints F}
    (hsize : t.adjoints.size = SlotCall.sizeAfterAll v.size past)
    (hslot : ∀ i, i < t.adjoints.size → t.adjoints.slot i = SlotCall.latest v i past) :
    t.ActsAs v past where
  size := hsize
  strictRead i := by
    split
    · next hi => exact hslot i hi ▸ yields_slotCall_get hi .strict
    · next hi => exact yields_slotCall_get_strict (Nat.le_of_not_lt hi)
  relaxedRead i := by
    split
    · next hi => exact hslot i hi ▸ yields_slotCall_get hi .relaxed
    · next hi =>
      have hread := yields_slotCall_get_relaxed (Nat.le_of_not_lt hi)
      split
      · next hfirst => exact hslot 0 hfirst ▸ hread
      · next hempty => exact Adjoints.slot_of_size_le (Nat.le_of_not_lt hempty) ▸ hread
  strictWrite _ x hi := yields_slotCall_set_strict hi x

end Tape

/-- Some calls, put to a tape one after another, come to their end exactly if no unchecked access
lies outside the vector and no size is one that a vector cannot have.  Then the tape differs from
what it was in its vector only, and the vector is a map that grows: its size is what the calls made
it, a strict read gives what was last written to a slot since it came into being or was cleared, and
refuses exactly the identifiers outside, and a relaxed read gives the same or is served by slot
zero.  Reads and refused writes leave the tape as it is.  Each further call that is allowed, and no
other, is served: it changes the size and the slots as such a call does, and nothing else. -/
theorem gradient_access_is_growing_map {F : Type} [Zero F] [FixedWidth F] {s : Scheme}
    (t : Tape F s) (past : List (SlotCall F)) :
    ((∃ t', (t.after past).Yields t') ↔ SlotCall.Lawful t.adjoints.size past) ∧
      ∀ t', (t.after past).Yields t' →
        (∃ w, t' = { t with adjoints := w }) ∧ t'.ActsAs t.adjoints past ∧
          ∀ c, t'.Serves c ↔ c.Allowed t'.adjoints.size := by
  have hlawful : ∀ t', (t.after past).Yields t' → SlotCall.Lawful t.adjoints.size past := by
    intro t' ht'
    obtain ⟨j', h⟩ := ht'.exists_outcome {}
    exact Tape.lawful_of_after h
  refine ⟨⟨?_, fun h => ?_⟩, fun t' ht' => ?_⟩
  · rintro ⟨t', ht'⟩
    exact hlawful t' ht'
  · obtain ⟨w, hyields, -⟩ := Tape.exists_after h
    exact ⟨_, hyields⟩
  · obtain ⟨w, hyields, hsize, hslot⟩ := Tape.exists_after (hlawful t' ht')
    obtain rfl := ht'.unique hyields
    exact ⟨⟨w, rfl⟩, Tape.actsAs_of_latest hsize hslot, Tape.serves_iff _⟩

/-- A slot that was dropped with its value is zero when it comes into being again. -/
theorem gradient_access_is_growing_map_of_shrunk :
    ∃ t t' : Tape Int .reuse, Tape.create {} #[3, 4] = .ok t ∧
      (t.after [.set 4 7 .relaxed, .resize 1, .seed 2 5]).Yields t' ∧ t'.adjoints.size = 5 ∧
      (t'.slotCall (.get 2 .strict)).Yields (.number 0, t') ∧
      (t'.slotCall (.get 4 .strict)).Yields (.number 7, t') ∧
      (t'.slotCall (.get 5 .strict)).Yields (.refused (.outOfBounds 5 5), t') ∧
      (t'.slotCall (.get 9 .relaxed)).Yields (.number 3, t') ∧
      (t'.slotCall (.set 5 1 .strict)).Yields (.refused (.outOfBounds 5 5), t') ∧
      t'.Serves (.seed 6 1) := by
  obtain ⟨t, ht⟩ : ∃ t : Tape Int .reuse, Tape.create {} #[3, 4] = .ok t := ⟨_, rfl⟩
  have hvector : t.adjoints = #[3, 4] := by cases ht; rfl
  obtain ⟨hends, hacts⟩ :=
    gradient_access_is_growing_map t [.set 4 7 .relaxed, .resize 1, .seed 2 5]
  rw [hvector] at hends hacts
  obtain ⟨t', ht'⟩ := hends.2 ⟨⟨⟨trivial, trivial⟩, Or.inl (by decide)⟩, trivial⟩
  obtain ⟨-, hacts, hserves⟩ := hacts t' ht'
  have hsize : t'.adjoints.size = 5 := hacts.size
  have hstrict := hacts.strictRead
  have hrelaxed := hacts.relaxedRead
  have hwrite := hacts.strictWrite
  rw [hsize] at hstrict hrelaxed hwrite
  exact ⟨t, t', ht, ht', hsize, hstrict 2, hstrict 4, hstrict 5, hrelaxed 9,
    hwrite 5 1 (Nat.le_refl 5), (hserves _).2 trivial⟩

end Autodiff
