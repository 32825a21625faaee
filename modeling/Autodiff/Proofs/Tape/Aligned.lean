import Autodiff.Proofs.Tape.Steps

/-!
# Tapes are aligned with their histories

The invariant behind every statement about reachable tapes: the streams are laid out as the
statements of the history settle it, blocks can be read back, and the positions that were kept are
those of prefixes of the history.  One lemma for each way to record shows that it is preserved.
-/

namespace Autodiff

/-! ## Positions of prefixes -/

namespace Scheme

variable {F : Type}

/-- The counter of identifiers behind some statements: under the linear scheme every statement but
a block takes a new one. -/
def counterAfter : Scheme → List (Statement F) → Nat
  | .linear, ss => ss.countP fun s => s.kind != .block
  | .reuse, _ => 0

@[simp] theorem counterAfter_nil (s : Scheme) : s.counterAfter ([] : List (Statement F)) = 0 := by
  cases s <;> rfl

theorem counterAfter_append (s : Scheme) (ss more : List (Statement F)) :
    s.counterAfter (ss ++ more) = s.counterAfter ss + s.counterAfter more := by
  cases s with
  | linear => exact List.countP_append
  | reuse => rfl

theorem counterAfter_singleton (s : Scheme) {x : Statement F} (h : x.kind ≠ .block) :
    s.counterAfter [x] = Supply.stride s := by
  cases s with
  | linear => simp [counterAfter, Supply.stride, h]
  | reuse => rfl

end Scheme

namespace Position

/-- No part of `q` lies before the same part of `p`. -/
structure Precedes (p q : Position) : Prop where
  statements : p.statements ≤ q.statements
  partials : p.partials ≤ q.partials
  tokens : p.tokens ≤ q.tokens
  fixed : p.fixed ≤ q.fixed
  dynamic : p.dynamic ≤ q.dynamic
  counter : p.counter ≤ q.counter

theorem Precedes.refl (p : Position) : p.Precedes p :=
  ⟨Cut.le_refl _, Cut.le_refl _, Cut.le_refl _, Cut.le_refl _, Cut.le_refl _, Nat.le_refl _⟩

theorem Precedes.le {p q : Position} (h : p.Precedes q) : p ≤ q := by
  obtain ⟨hs, hp, ht, hf, hd, hc⟩ := h
  rw [Cut.le_iff] at hs hp ht hf hd
  -- Positions compare by the plain order on lists, whatever other order is in sight.
  show @LE.le _ List.instLE p.coordinates q.coordinates
  simp only [coordinates, List.cons_le_cons_iff, List.le_refl, and_true]
  omega

theorem statements_le {p q : Position} (h : p ≤ q) : p.statements ≤ q.statements := by
  have hcoordinates : @LE.le _ List.instLE p.coordinates q.coordinates := h
  simp only [coordinates, List.cons_le_cons_iff] at hcoordinates
  rw [Cut.le_iff]
  omega

end Position

namespace Recording

variable {F : Type} {c : Settings} {s : Scheme}

/-- The position of a tape that holds the given statements. -/
def place (c : Settings) (s : Scheme) (ss : List (Statement F)) : Position :=
  cutAfter c ss (s.counterAfter ss)

theorem place_nil (c : Settings) (s : Scheme) : place c s ([] : List (Statement F)) = .zero := by
  rw [place, Scheme.counterAfter_nil, cutAfter_nil]

theorem place_precedes (c : Settings) (s : Scheme) (before more : List (Statement F)) :
    (place c s before).Precedes (place c s (before ++ more)) where
  statements := column_endCut_le c.statementChunk (fun s => [head s]) before more
  partials := column_endCut_le c.partialChunk _ before more
  tokens := column_endCut_le c.tokenChunk _ before more
  fixed := column_endCut_le c.byteChunk _ before more
  dynamic := column_endCut_le c.byteChunk _ before more
  counter := by
    show s.counterAfter before ≤ s.counterAfter (before ++ more)
    rw [Scheme.counterAfter_append]
    exact Nat.le_add_right _ _

/-- The number of statements before a position is read off the statement stream. -/
theorem Spells.rank_place_take {r : Recording F} {ss : List (Statement F)} (h : r.Spells c ss)
    {n : Nat} (hn : n ≤ ss.length) :
    r.statements.rank (place c s (ss.take n)).statements = n := by
  have hsplit : r.Spells c (ss.take n ++ ss.drop n) := by
    rwa [List.take_append_drop]
  rw [place, hsplit.rank_cutAfter, List.length_take, Nat.min_eq_left hn]

theorem place_take_le_place_take {ss : List (Statement F)} {i k : Nat} (hi : i ≤ ss.length)
    (hk : k ≤ ss.length) : place c s (ss.take i) ≤ place c s (ss.take k) ↔ i ≤ k := by
  have hle {a b : Nat} (hab : a ≤ b) : place c s (ss.take a) ≤ place c s (ss.take b) := by
    obtain ⟨more, hmore⟩ := List.take_prefix_take_left (l := ss) hab
    rw [← hmore]
    exact (place_precedes c s _ _).le
  constructor
  · intro h
    have hspells := spells_ofStatements c ss
    have hcontains :
        (ofStatements c ss).statements.Contains (place c s (ss.take i)).statements := by
      have hsplit : (ofStatements c ss).Spells c (ss.take i ++ ss.drop i) := by
        rwa [List.take_append_drop]
      exact (hsplit.contains_cutAfter _).1
    have hmono := Chunked.rank_mono hcontains (Position.statements_le h)
    rwa [hspells.rank_place_take hi, hspells.rank_place_take hk] at hmono
  · exact hle

end Recording

/-! ## The invariant -/

theorem Statement.Readable.mono {F : Type} {g g' : Registry F} {x : Statement F}
    (h : x.Readable g) (hg : ∀ token f, g.get? token = some f → g'.get? token = some f) :
    x.Readable g' := by
  cases x with
  | input t => trivial
  | normal t entries => trivial
  | block token largest fixed dynamic =>
    obtain ⟨f, hf, hrest⟩ := h
    exact ⟨f, hg token f hf, hrest⟩

theorem Registry.get?_of_register {F : Type} {g g' : Registry F} {f f' : External F}
    {token other : Nat} (h : g.register f = .ok (token, g')) (hother : g.get? other = some f') :
    g'.get? other = some f' := by
  have hlt : other < g.functions.size := (Array.getElem?_eq_some_iff.1 hother).1
  rw [Registry.get?_register_of_lt h hlt, hother]

theorem Registry.get?_register_cases {F : Type} {g g' : Registry F} {f f' : External F}
    {token other : Nat} (h : g.register f = .ok (token, g')) (hother : g'.get? other = some f') :
    g.get? other = some f' ∨ f' = f := by
  unfold register at h
  split at h
  · cases h
    have hpush : (g.functions.push f)[other]? = some f' := hother
    rw [Array.getElem?_push] at hpush
    split at hpush
    · exact Or.inr (Option.some.inj hpush).symm
    · exact Or.inl hpush
  · cases h

/-- The functions of the registry are those of the library. -/
def Registry.Within {F : Type} (g : Registry F) (lib : Library F) : Prop :=
  ∀ token f, g.get? token = some f → lib.function f.key = f

theorem Registry.Within.register {F : Type} {g g' : Registry F} {lib : Library F}
    (hg : g.Within lib) {key token : Nat} (h : g.register (lib.function key) = .ok (token, g')) :
    g'.Within lib := by
  intro other f hf
  rcases Registry.get?_register_cases h hf with hold | rfl
  · exact hg other f hold
  · rw [lib.key_function]

/-- The statements before the position `p` are `ss`. -/
def Tape.Denotes {F : Type} {s : Scheme} (t : Tape F s) (p : Position) (ss : List (Statement F)) :
    Prop :=
  t.Contains p ∧ (t.recording.truncate p).Holds ss

open Recording in
/-- A tape and its history. -/
structure Aligned {F : Type} {s : Scheme} (lib : Library F) (t : Tape F s) (h : History F) :
    Prop where
  spells : t.recording.Spells t.settings h.statements
  counted : t.supply.mark = s.counterAfter h.statements
  readable : ∀ x ∈ h.statements, x.Readable t.registry
  within : t.registry.Within lib
  marked : ∀ m ∈ h.marks, m.2 ≤ h.statements.length ∧
    m.1 = place t.settings s (h.statements.take m.2)

namespace Aligned

open Recording

variable {F : Type} {s : Scheme} {lib : Library F} {t t' : Tape F s} {h : History F}

theorem position_eq (ht : Aligned lib t h) : t.position = place t.settings s h.statements := by
  rw [Tape.position, ht.counted, ht.spells.endPosition_eq]
  rfl

theorem eq_place (ht : Aligned lib t h) {p : Position} {n : Nat} (hp : h.Valid p n) :
    n ≤ h.statements.length ∧ p = place t.settings s (h.statements.take n) := by
  rcases hp with ⟨rfl, rfl⟩ | hmem
  · exact ⟨Nat.zero_le _, by rw [List.take_zero, place_nil]⟩
  · exact ht.marked (p, n) hmem

theorem spells_split (ht : Aligned lib t h) (n : Nat) :
    t.recording.Spells t.settings (h.statements.take n ++ h.statements.drop n) := by
  rw [List.take_append_drop]
  exact ht.spells

theorem contains (ht : Aligned lib t h) {p : Position} {n : Nat} (hp : h.Valid p n) :
    t.Contains p := by
  obtain ⟨-, rfl⟩ := ht.eq_place hp
  exact (ht.spells_split n).contains_cutAfter _

theorem denotes (ht : Aligned lib t h) {p : Position} {n : Nat} (hp : h.Valid p n) :
    t.Denotes p (h.statements.take n) := by
  refine ⟨ht.contains hp, ?_⟩
  rw [(ht.eq_place hp).2]
  exact ((ht.spells_split n).truncate_cutAfter _).holds

theorem le_iff (ht : Aligned lib t h) {p q : Position} {i k : Nat} (hp : h.Valid p i)
    (hq : h.Valid q k) : p ≤ q ↔ i ≤ k := by
  obtain ⟨hi, rfl⟩ := ht.eq_place hp
  obtain ⟨hk, rfl⟩ := ht.eq_place hq
  exact place_take_le_place_take hi hk

/-- Between two valid positions the recording spells a segment of the history. -/
theorem spans (ht : Aligned lib t h) {p q : Position} {i k : Nat} (hp : h.Valid p i)
    (hq : h.Valid q k) (hik : i ≤ k) :
    ∃ before after m n, t.recording.Spells t.settings (before ++ (h.between i k ++ after)) ∧
      p = cutAfter t.settings before m ∧ q = cutAfter t.settings (before ++ h.between i k) n := by
  obtain ⟨hi, rfl⟩ := ht.eq_place hp
  obtain ⟨hk, rfl⟩ := ht.eq_place hq
  have htake := h.take_append_between hik
  refine ⟨h.statements.take i, h.statements.drop k, s.counterAfter (h.statements.take i),
    s.counterAfter (h.statements.take k), ?_, rfl, ?_⟩
  · rw [← List.append_assoc, htake, List.take_append_drop]
    exact ht.spells
  · rw [htake]
    rfl

theorem readable_between (ht : Aligned lib t h) (i k : Nat) :
    ∀ x ∈ h.between i k, x.Readable t.registry := by
  intro x hx
  exact ht.readable x (List.mem_of_mem_take (List.mem_of_mem_drop hx))

/-! ### What leaves the recording alone -/

theorem of_eq (ht : Aligned lib t h) (hrecording : t'.recording = t.recording)
    (hregistry : t'.registry = t.registry) (hmark : t'.supply.mark = t.supply.mark)
    (hsettings : t'.settings = t.settings) : Aligned lib t' h := by
  obtain ⟨hspells, hcounted, hreadable, hwithin, hmarked⟩ := ht
  refine ⟨?_, ?_, ?_, ?_, ?_⟩
  · rwa [hrecording, hsettings]
  · rwa [hmark]
  · rwa [hregistry]
  · rwa [hregistry]
  · rwa [hsettings]

theorem release (ht : Aligned lib t h) {identifier : Nat} (hr : t.release identifier = .ok t') :
    Aligned lib t' h := by
  obtain ⟨supply, hsupply, rfl⟩ := Tape.release_eq_ok_iff.1 hr
  exact ht.of_eq rfl rfl (Supply.mark_release hsupply) rfl

theorem register (ht : Aligned lib t h) {key token : Nat}
    (hr : t.register (lib.function key) = .ok (token, t')) : Aligned lib t' h := by
  obtain ⟨hregister, ht'⟩ := Tape.register_cases hr
  obtain ⟨hspells, hcounted, hreadable, hwithin, hmarked⟩ := ht
  rw [ht']
  refine ⟨hspells, hcounted, fun x hx => ?_, hwithin.register hregister, hmarked⟩
  exact (hreadable x hx).mono fun other f hf => Registry.get?_of_register hregister hf

theorem mark (ht : Aligned lib t h) : Aligned lib t (h.mark t.position) := by
  refine ⟨ht.spells, ht.counted, ht.readable, ht.within, fun m hm => ?_⟩
  rcases List.mem_cons.1 hm with rfl | hm
  · refine ⟨Nat.le_refl _, ?_⟩
    show t.position = place t.settings s (h.statements.take h.statements.length)
    rw [List.take_length, ht.position_eq]
  · exact ht.marked m hm

/-! ### What records a statement -/

/-- Recording one statement; `supply` has given out the identifier that the statement takes. -/
theorem record (ht : Aligned lib t h) {x : Statement F} (hx : x.Readable t.registry)
    {supply : Supply s} (hmark : supply.mark = t.supply.mark + s.counterAfter [x]) :
    Aligned lib { t with recording := t.recording.append x, supply := supply } (h.extend [x]) := by
  obtain ⟨hspells, hcounted, hreadable, hwithin, hmarked⟩ := ht
  refine ⟨hspells.append x, ?_, fun y hy => ?_, hwithin, fun m hm => ?_⟩
  · show supply.mark = s.counterAfter (h.statements ++ [x])
    rw [hmark, hcounted, Scheme.counterAfter_append]
  · rcases List.mem_append.1 hy with hy | hy
    · exact hreadable y hy
    · rwa [List.mem_singleton.1 hy]
  -- Recording goes behind all positions that were kept.
  · obtain ⟨hle, heq⟩ := hmarked m hm
    refine ⟨?_, ?_⟩
    · show m.2 ≤ (h.statements ++ [x]).length
      rw [List.length_append]
      omega
    · show m.1 = place t.settings s ((h.statements ++ [x]).take m.2)
      rw [List.take_append_of_le_length hle, heq]

theorem store (ht : Aligned lib t h) {target identifier : Nat} {arguments : List (F × Nat)}
    {j j' : Journal} (hs : (t.store target arguments).outcome j = (.ok (identifier, t'), j')) :
    Aligned lib t' (h.extend (t.newAssignment identifier arguments)) := by
  rcases Tape.store_cases hs with ⟨hnew, -, hrelease⟩ | ⟨entries, supply, hnew, -, hclaim, rfl⟩
  · rw [hnew, History.extend_nil]
    exact ht.release hrelease
  · rw [hnew]
    refine ht.record (x := .normal identifier entries) trivial ?_
    rw [Scheme.counterAfter_singleton s (by simp [Statement.kind])]
    exact Supply.mark_claim hclaim

theorem registerInput (ht : Aligned lib t h) {identifier : Nat} {j j' : Journal}
    (hs : t.registerInput.outcome j = (.ok (identifier, t'), j')) :
    Aligned lib t' (h.extend (t.newInput identifier)) := by
  rcases Tape.registerInput_cases hs with ⟨hnew, -, rfl⟩ | ⟨supply, hnew, hgenerate, rfl⟩
  · rwa [hnew, History.extend_nil]
  · rw [hnew]
    refine ht.record (x := .input identifier) trivial ?_
    rw [Scheme.counterAfter_singleton s (by simp [Statement.kind])]
    exact Supply.mark_generate hgenerate

theorem registerOutput [One F] (ht : Aligned lib t h) {identifier output : Nat} {j j' : Journal}
    (hs : (t.registerOutput identifier).outcome j = (.ok (output, t'), j')) :
    Aligned lib t' (h.extend (t.newOutput identifier output)) := by
  rcases Tape.registerOutput_cases hs with ⟨hnew, rfl⟩ | ⟨t₁, k, hstore, hnew, hrelease⟩
  · rwa [hnew, History.extend_nil]
  · rw [hnew]
    exact (ht.store hstore).release hrelease

theorem pushBlock (ht : Aligned lib t h) {token fixedSize dynamicSize : Nat}
    {write : Writer → Writer → Except Fault (Writer × Writer)} {views : Option (Writer × Writer)}
    {j j' : Journal} (hwrite : Fills write)
    (hs : (t.pushBlock token fixedSize dynamicSize write).outcome j = (.ok (views, t'), j')) :
    Aligned lib t' (h.extend (newBlock token views)) := by
  rcases Tape.pushBlock_cases hwrite hs with
    ⟨rfl, rfl⟩ | ⟨fixed, dynamic, f, asked, rfl, hf, hsize, hcount, rfl⟩
  · show Aligned lib t' (h.extend [])
    rwa [History.extend_nil]
  -- However often the function was asked when the block was pushed, it answers the same again.
  · refine ht.record (x := .block token _ _ _) ⟨f, hf, ?_, fun other => ?_⟩ ?_
    · rw [Array.length_toList, hsize]
    · have hf' := ht.within token f hf
      rw [← hf', lib.dynamicSize_eq, hf'] at hcount ⊢
      rw [Array.length_toList]
      exact hcount
    · cases s <;> rfl

/-! ### What drops statements -/

theorem create [Zero F] [FixedWidth F] {settings : Settings} {v : Adjoints F}
    (hc : Tape.create settings v = .ok t) : Aligned lib t {} := by
  obtain ⟨hrecording, hregistry, hsupply, hsettings, -⟩ := Tape.create_cases hc
  refine ⟨?_, ?_, by simp, ?_, by simp⟩
  · rw [hsettings]
    exact spells_of_create hrecording
  · rw [hsupply, Supply.mark_fresh, Scheme.counterAfter_nil]
  · intro token f hf
    rw [hregistry] at hf
    simp [Registry.get?] at hf

theorem reset [Zero F] (ht : Aligned lib t h) {j j' : Journal}
    (hr : t.reset.outcome j = (.ok t', j')) : Aligned lib t' {} := by
  obtain ⟨hrecording, hsupply, hregistry, hsettings⟩ := Tape.reset_cases hr
  refine ⟨?_, ?_, by simp, ?_, by simp⟩
  · rw [hrecording, hsettings]
    exact ht.spells.clear
  · rw [hsupply, Supply.mark_restart, Scheme.counterAfter_nil]
  · rw [hregistry]
    exact ht.within

theorem resetTo (ht : Aligned lib t h) {p : Position} {n : Nat} (hp : h.Valid p n) {j j' : Journal}
    (hr : (t.resetTo p).outcome j = (.ok t', j')) : Aligned lib t' (h.cut p n) := by
  obtain ⟨supply, -, hsupply, rfl⟩ := Tape.resetTo_cases hr
  obtain ⟨hn, heq⟩ := ht.eq_place hp
  refine ⟨?_, ?_, fun x hx => ht.readable x (List.mem_of_mem_take hx), ht.within, fun m hm => ?_⟩
  · rw [heq]
    exact (ht.spells_split n).truncate_cutAfter _
  · rw [Supply.mark_rewindTo hsupply, heq]
    cases s with
    | linear => exact Nat.mul_one _
    | reuse => rfl
  -- A position that is kept has no more statements before it than the one of the cut.
  · obtain ⟨hm, hle⟩ := List.mem_filter.1 hm
    obtain ⟨hmn, hmeq⟩ := ht.marked m hm
    have hmvalid : h.Valid m.1 m.2 := Or.inr hm
    have hmle : m.2 ≤ n := (ht.le_iff hmvalid hp).1 (of_decide_eq_true hle)
    refine ⟨?_, ?_⟩
    · show m.2 ≤ (h.statements.take n).length
      rw [List.length_take]
      omega
    · show m.1 = place t.settings s ((h.statements.take n).take m.2)
      rw [List.take_take, Nat.min_eq_left hmle, hmeq]

end Aligned

end Autodiff
