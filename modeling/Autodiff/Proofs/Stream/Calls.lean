import Autodiff.Proofs.Stream.Capacity

/-!
# Sequences of calls

Whatever a program does with a stream that it records into is a sequence of a few calls.  Each of
them adds items that fit or cuts the stream off, so what both keep holds after any sequence.  A
chunk is opened where a reservation does not fit into the chunk before, with the common size or,
when more is reserved, with the size of the reservation: a larger limit tells which one the chunk
is there for.
-/

namespace Autodiff.Chunked

open Run

variable {α : Type}

/-! ## Calls -/

/-- What a program can ask of a stream that it records into. -/
inductive Call (α : Type) where
  | reserve (n : Nat)
  | push (x : α)
  /-- Reserve zeros, write `xs` over the first of them, and leave `n` as they are. -/
  | zeroed (xs : List α) (n : Nat)
  | rewind (p : Cut)
  | clear

namespace Call

/-- There has to be memory for what is reserved, something has to be reserved before it is pushed,
and a stream is rewound to its own cuts. -/
def Allowed (width : Nat) (s : Chunked α) : Call α → Prop
  | reserve n => s.HasMemory width n
  | push _ => s.current.room ≠ 0
  | zeroed xs n => s.HasMemory width (xs.length + n)
  | rewind p => s.Contains p
  | clear => True

instance (width : Nat) (s : Chunked α) : (c : Call α) → Decidable (c.Allowed width s)
  | reserve n => inferInstanceAs (Decidable (s.HasMemory width n))
  | push _ => inferInstanceAs (Decidable (s.current.room ≠ 0))
  | zeroed xs n => inferInstanceAs (Decidable (s.HasMemory width (xs.length + n)))
  | rewind p => inferInstanceAs (Decidable (s.Contains p))
  | clear => .isTrue trivial

/-- For how many items a call sees to it that they fit. -/
def reserves : Call α → Nat
  | reserve n => n
  | zeroed xs n => xs.length + n
  | push _ | rewind _ | clear => 0

variable [Zero α]

/-- One call on a stream of which the wider column takes `width` bytes for each item. -/
def perform (width : Nat) (s : Chunked α) : Call α → Run (Chunked α)
  | reserve n => s.makeRoom width n
  | push x => liftM (s.push x)
  | zeroed xs n => s.addZeroed width (xs.length + n) xs
  | rewind p => liftM (s.rewindTo p)
  | clear => pure s.clear

/-- Perform the calls one after the other on a new stream. -/
def performAll (width n : Nat) (cs : List (Call α)) : Run (Chunked α) := do
  let s ← allocate width n
  cs.foldlM (perform width) s

/-- Each call is allowed when it comes. -/
def Lawful (width : Nat) (s : Chunked α) : List (Call α) → Prop
  | [] => True
  | c :: cs => c.Allowed width s ∧ ∀ s', (c.perform width s).Yields s' → Lawful width s' cs

/-! ## One call -/

variable {width n : Nat} {s s' : Chunked α} {c : Call α} {cs : List (Call α)}

theorem inStep_perform (width : Nat) (s : Chunked α) (c : Call α) :
    InStep Eq (c.perform width s) (c.perform width s) := by
  cases c with
  | reserve n => exact (s.inStep_prepare width n).bind_same fun _ => abreast_pure rfl
  | push x => exact inStep_same _
  | zeroed xs n => exact (s.inStep_prepare width _).bind_same fun _ => abreast_pure rfl
  | rewind p => exact inStep_same _
  | clear => exact abreast_pure rfl

/-- Exactly the allowed calls do not fail. -/
theorem exists_perform_iff : (∃ s', (c.perform width s).Yields s') ↔ c.Allowed width s := by
  cases c with
  | reserve m => simp [perform, Allowed, yields_makeRoom_iff]
  | push x =>
    by_cases hroom : s.current.room = 0 <;>
      simp [perform, yields_liftM_iff, Chunked.push, Allowed, hroom]
  | zeroed xs m => simp [perform, Allowed, yields_addZeroed_iff]
  | rewind p =>
    by_cases hp : s.Contains p <;> simp [perform, yields_liftM_iff, rewindTo, Allowed, hp]
  | clear => exact ⟨fun _ => trivial, fun _ => ⟨_, yields_pure _⟩⟩

/-- A call adds items that it made room for or that have room anyway, or it cuts the stream off. -/
theorem cases_of_perform (h : (c.perform width s).Yields s') :
    (∃ xs : List α, xs.length ≤ (s.reserve c.reserves).current.room ∧
      s' = (s.reserve c.reserves).extend xs) ∨ ∃ p, s.Contains p ∧ s' = s.truncate p := by
  cases c with
  | reserve m =>
    obtain ⟨-, rfl⟩ := yields_makeRoom_iff.1 h
    exact Or.inl ⟨[], Nat.zero_le _, by simp [reserves, extend]⟩
  | push x =>
    have hroom : s.current.room ≠ 0 := exists_perform_iff.1 ⟨s', h⟩
    rw [perform, yields_liftM_iff, Chunked.push, if_neg hroom] at h
    cases h
    -- A push makes no room; its item goes where there is some already.
    have hsame : s.reserve 0 = s := by simp [Chunked.reserve]
    refine Or.inl ⟨[x], ?_, ?_⟩
    · show 1 ≤ (s.reserve 0).current.room
      rw [hsame]
      omega
    · show s.extend [x] = (s.reserve 0).extend [x]
      rw [hsame]
  | zeroed xs m =>
    obtain ⟨-, rfl⟩ := yields_addZeroed_iff.1 h
    have hlength : (xs ++ List.replicate m (0 : α)).length = xs.length + m := by simp
    refine Or.inl ⟨xs ++ List.replicate m 0, ?_, ?_⟩
    · rw [hlength]
      exact s.le_room_reserve (xs.length + m)
    · rw [Chunked.pushRun, hlength]
      rfl
  | rewind p =>
    have hp : s.Contains p := exists_perform_iff.1 ⟨s', h⟩
    rw [perform, yields_liftM_iff, rewindTo, if_pos hp] at h
    cases h
    exact Or.inr ⟨p, hp, rfl⟩
  | clear => exact Or.inr ⟨.zero, s.contains_zero, (yields_pure_iff.1 h).symm⟩

theorem fits_perform (hs : s.Fits) (h : (c.perform width s).Yields s') : s'.Fits := by
  obtain ⟨xs, hroom, rfl⟩ | ⟨p, hp, rfl⟩ := cases_of_perform h
  · exact (hs.reserve _).extend hroom
  · exact hs.truncate hp

theorem chunkSize_perform (h : (c.perform width s).Yields s') : s'.chunkSize = s.chunkSize := by
  obtain ⟨xs, -, rfl⟩ | ⟨p, hp, rfl⟩ := cases_of_perform h
  · exact (s.continues_reserve c.reserves).chunkSize
  · exact (continues_truncate hp).chunkSize.symm

/-! ## Sequences of calls -/

theorem Lawful.foldlM_reserve {ms : List Nat} (h : Lawful width s (ms.map reserve)) :
    ((ms.map reserve).foldlM (perform width) s).Yields (ms.foldl Chunked.reserve s) := by
  induction ms generalizing s with
  | nil => exact yields_pure s
  | cons m ms ih =>
    have hm : ((reserve m).perform width s).Yields (s.reserve m) :=
      yields_makeRoom_iff.2 ⟨h.1, rfl⟩
    rw [List.map_cons, List.foldlM_cons]
    exact hm.bind (ih (h.2 _ hm))

theorem foldlM_push {xs : List α} (h : xs.length ≤ s.current.room) :
    ((xs.map push).foldlM (perform width) s).Yields (s.extend xs) := by
  rw [List.foldlM_map]
  exact yields_foldlM_liftM (Chunked.foldlM_push h)

theorem Lawful.cons (hc : c.Allowed width s) (hs : (c.perform width s).Yields s')
    (h : Lawful width s' cs) : Lawful width s (c :: cs) := by
  refine ⟨hc, fun u hu => ?_⟩
  rwa [hu.unique hs]

theorem Lawful.exists_foldlM (h : Lawful width s cs) :
    ∃ s', (cs.foldlM (perform width) s).Yields s' := by
  induction cs generalizing s with
  | nil => exact ⟨s, yields_pure s⟩
  | cons c cs ih =>
    obtain ⟨s', hs'⟩ := exists_perform_iff.2 h.1
    obtain ⟨s'', hs''⟩ := ih (h.2 s' hs')
    rw [List.foldlM_cons]
    exact ⟨s'', hs'.bind hs''⟩

theorem Lawful.exists_performAll (hn : 0 < n) (hsize : n * width ≤ memoryLimit)
    (h : Lawful width (blank n) cs) : ∃ s, (performAll width n cs).Yields s := by
  obtain ⟨s, hs⟩ := h.exists_foldlM
  exact ⟨s, (yields_liftM (allocate_eq_ok_iff.2 ⟨⟨hn, hsize⟩, rfl⟩)).bind hs⟩

theorem inStep_performAll (width n : Nat) (cs : List (Call α)) :
    InStep Eq (performAll width n cs) (performAll width n cs) :=
  (inStep_same _).bind_same fun s => inStep_foldlM (inStep_perform width) cs s

theorem performAll_concat (width n : Nat) (cs : List (Call α)) (c : Call α) :
    performAll width n (cs ++ [c]) = performAll width n cs >>= fun s => c.perform width s := by
  simp [performAll]

theorem yields_performAll_concat_iff :
    (performAll width n (cs ++ [c])).Yields s' ↔
      ∃ s, (performAll width n cs).Yields s ∧ (c.perform width s).Yields s' := by
  rw [performAll_concat]
  exact (inStep_performAll width n cs).yields_bind_iff fun s => inStep_perform width s c

/-- What holds of a new stream and is kept by each call holds whatever was called. -/
theorem performAll_keeps {P : List (Call α) → Chunked α → Prop} (hstart : P [] (blank n))
    (hstep : ∀ cs c s s', (performAll width n cs).Yields s → P cs s →
      (c.perform width s).Yields s' → P (cs ++ [c]) s')
    (h : (performAll width n cs).Yields s) : P cs s := by
  -- Calls are taken off the end, since what a call meets is what those before it left.
  induction cs using List.reverseRecOn generalizing s with
  | nil =>
    have hallocate : allocate width n = .ok s := by
      simpa [performAll, yields_liftM_iff] using h
    rw [← (allocate_eq_ok_iff.1 hallocate).2]
    exact hstart
  | append_singleton cs c ih =>
    obtain ⟨u, hu, hperform⟩ := yields_performAll_concat_iff.1 h
    exact hstep cs c u s hu (ih hu) hperform

theorem fits_performAll (h : (performAll width n cs).Yields s) : s.Fits :=
  performAll_keeps (P := fun _ s => s.Fits) (fits_blank n) (fun _ _ _ _ _ => fits_perform) h

theorem chunkSize_performAll (h : (performAll width n cs).Yields s) : s.chunkSize = n :=
  performAll_keeps (P := fun _ s => s.chunkSize = n) rfl
    (fun _ _ _ _ _ hs h => (chunkSize_perform h).trans hs) h

/-! ## What a chunk was opened for -/

/-- One of the calls reserved `m` items and opened the chunk with the number `i` for them, since the
chunk before had not enough room.  Chunk `i` has been there ever since. -/
def Opened (width n : Nat) (cs : List (Call α)) (i m : Nat) : Prop :=
  ∃ past c rest s, cs = past ++ c :: rest ∧ (performAll width n past).Yields s ∧
    c.reserves = m ∧ s.current.room < m ∧ s.chunkCount = i ∧
    ∀ later s', later <+: rest → (performAll width n (past ++ c :: later)).Yields s' →
      i < s'.chunkCount

/-- After a call each chunk has the limit that it had before, or it was opened by the call. -/
theorem limit_perform (h : (c.perform width s).Yields s') {i : Nat} {k' : Chunk α}
    (hk' : s'.chunk? i = some k') :
    (∃ k, s.chunk? i = some k ∧ k'.limit = k.limit) ∨
      s.current.room < c.reserves ∧ s.chunkCount = i ∧
        k'.limit = max s.chunkSize c.reserves := by
  obtain ⟨xs, -, rfl⟩ | ⟨p, hp, rfl⟩ := cases_of_perform h
  · have hgrown := continues_extend (s.reserve c.reserves) xs
    by_cases hi : i < s.chunkCount
    · obtain ⟨k, hk⟩ := exists_chunk? hi
      exact Or.inl ⟨k, hk, ((s.continues_reserve _).trans hgrown).limit_eq hk hk'⟩
    · right
      have hlt := lt_chunkCount_of_chunk? hk'
      change i < (s.reserve c.reserves).closed.size + 1 at hlt
      have hcount : ¬i < s.closed.size + 1 := hi
      -- There is one more chunk than before.
      by_cases hroom : s.current.room < c.reserves
      · have hsize := size_closed_reserve hroom
        obtain rfl : i = (s.reserve c.reserves).closed.size := by omega
        refine ⟨hroom, hsize.symm, ?_⟩
        rw [hgrown.limit_eq (chunk?_current _) hk', Chunked.reserve, if_pos hroom]
        rfl
      · rw [Chunked.reserve, if_neg hroom] at hlt
        omega
  · obtain ⟨xs, hxs⟩ := (continues_truncate hp).grown hk'
    exact Or.inl ⟨_, hxs, rfl⟩

theorem Opened.concat {i m : Nat} (h : Opened width n cs i m)
    (hs : (performAll width n (cs ++ [c])).Yields s) (hi : i < s.chunkCount) :
    Opened width n (cs ++ [c]) i m := by
  obtain ⟨past, d, rest, u, rfl, hu, hreserves, hroom, hcount, hsince⟩ := h
  refine ⟨past, d, rest ++ [c], u, by simp, hu, hreserves, hroom, hcount,
    fun later u' hlater hu' => ?_⟩
  rcases List.prefix_concat_iff.1 hlater with rfl | hlater
  · rw [List.append_assoc, List.cons_append] at hs
    rwa [hu'.unique hs]
  · exact hsince later u' hlater hu'

theorem opened_last (hs : (performAll width n cs).Yields s)
    (hs' : (performAll width n (cs ++ [c])).Yields s')
    (hroom : s.current.room < c.reserves) (hlt : s.chunkCount < s'.chunkCount) :
    Opened width n (cs ++ [c]) s.chunkCount c.reserves := by
  refine ⟨cs, c, [], s, rfl, hs, rfl, hroom, rfl, fun later u hlater hu => ?_⟩
  rw [List.prefix_nil.1 hlater] at hu
  rwa [hu.unique hs']

/-- A limit is the common size, or it is a reservation that the chunk was opened for. -/
theorem limit_performAll (h : (performAll width n cs).Yields s) :
    ∀ i k, s.chunk? i = some k → n ≤ k.limit ∧ (n < k.limit → Opened width n cs i k.limit) := by
  refine performAll_keeps (P := fun cs s => ∀ i k, s.chunk? i = some k →
    n ≤ k.limit ∧ (n < k.limit → Opened width n cs i k.limit)) ?_ ?_ h
  · intro i k hk
    have hchunk := lt_chunkCount_of_chunk? hk
    obtain rfl : i = 0 := by simpa [chunkCount, blank] using hchunk
    have hlimit : k.limit = n := by
      cases hk
      rfl
    exact ⟨Nat.le_of_eq hlimit.symm, fun hlt => absurd hlt (by omega)⟩
  -- A chunk that was there keeps its limit and the call that opened it; a new one was opened now.
  · intro cs c s s' hs ih hperform i k' hk'
    have hs' := yields_performAll_concat_iff.2 ⟨s, hs, hperform⟩
    have hi := lt_chunkCount_of_chunk? hk'
    obtain ⟨k, hk, hlimit⟩ | ⟨hroom, rfl, hlimit⟩ := limit_perform hperform hk'
    · rw [hlimit]
      obtain ⟨hle, hopened⟩ := ih i k hk
      exact ⟨hle, fun hlt => (hopened hlt).concat hs' hi⟩
    · rw [chunkSize_performAll hs] at hlimit
      refine ⟨hlimit ▸ Nat.le_max_left _ _, fun hlt => ?_⟩
      have hreserves : k'.limit = c.reserves := by omega
      rw [hreserves]
      exact opened_last hs hs' hroom hi

end Call

end Autodiff.Chunked
