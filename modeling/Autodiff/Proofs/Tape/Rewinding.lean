import Autodiff.Proofs.Tape.Decoding
import Autodiff.Proofs.Tape.Intact

/-!
# Rewinding

Whatever is recorded, appended, erased and cut off behind a position, nothing before it is touched,
down to the chunk into which the position points.  Resetting the tape to the position therefore
gives back the tape on which it was taken, and a linear tape, whose supply is rewound with it, goes
the same way again when the same is asked of it.
-/

namespace Autodiff

open Recording

/-! ## What happens behind a position -/

/-- The valid positions of a tape: its start and those that were kept. -/
def History.positions {F : Type} (h : History F) : List Position := .zero :: h.marks.map Prod.fst

/-- A reset goes to a position that was taken before, and that is not smaller than `p`. -/
def Call.Behind {F : Type} (p : Position) (taken : List Position) : Call F → Prop
  | .resetTo q => q ∈ taken ∧ p ≤ q
  | _ => True

section Onward

variable {F : Type}

/-- What happens to a tape between calls: functions are registered, the vector changes, and ranges
are appended or, from a position on that is not smaller than `p`, erased. -/
inductive Interlude (lib : Library F) (p : Position) (taken : List Position) :
    {s : Scheme} → Tape F s → Tape F s → Prop
  | register {s : Scheme} {t t' : Tape F s} {key token : Nat} :
    t.register (lib.function key) = .ok (token, t') → Interlude lib p taken t t'
  | setVector {s : Scheme} {t : Tape F s} (v : Adjoints F) :
    Interlude lib p taken t { t with adjoints := v }
  | append {t t' source : Tape F .reuse} {q r : Position} {j j' : Journal} :
    source.registry.Within lib → (t.append source q r).outcome j = (.ok (.ok t'), j') →
      Interlude lib p taken t t'
  | erase {t t' : Tape F .reuse} {q r : Position} {result : Except Refusal Unit} {j j' : Journal} :
    q ∈ taken → p ≤ q → (t.erase q r).outcome j = (.ok (result, t'), j') →
      Interlude lib p taken t t'
  | eraseWith {t t' scratch scratch' : Tape F .reuse} {q r : Position}
      {result : Except Refusal Unit} {j j' : Journal} :
    scratch.registry.Within lib → q ∈ taken → p ≤ q →
      (t.eraseWith scratch q r).outcome j = (.ok (result, t', scratch'), j') →
      Interlude lib p taken t t'

/-- What happens to a tape behind the position `p`, one thing after another: the positions that had
been taken before and after that, and all calls with their answers and the positions behind them.  A
position may also be used when the tape was cut back to before it in the meantime. -/
inductive Onward [One F] (lib : Library F) (p : Position) {s : Scheme} :
    List Position → Tape F s → List (Call F × Answer F × Position) → List Position → Tape F s → Prop
  | refl {taken : List Position} {t : Tape F s} : Onward lib p taken t [] taken t
  | mark {taken taken' : List Position} {t t' : Tape F s}
      {log : List (Call F × Answer F × Position)} :
    Onward lib p (t.position :: taken) t log taken' t' → Onward lib p taken t log taken' t'
  | interlude {taken taken' : List Position} {t t₁ t' : Tape F s}
      {log : List (Call F × Answer F × Position)} :
    Interlude lib p taken t t₁ → Onward lib p taken t₁ log taken' t' →
      Onward lib p taken t log taken' t'
  | call {taken taken' : List Position} {t t₁ t' : Tape F s} {c : Call F} {a : Answer F}
      {log : List (Call F × Answer F × Position)} {j j' : Journal} :
    (t.call c).outcome j = (.ok (a, t₁), j') → c.Behind p taken →
      Onward lib p taken t₁ log taken' t' →
      Onward lib p taken t ((c, a, t₁.position) :: log) taken' t'

end Onward

/-! ## One step -/

section Steps

variable {F : Type} {lib : Library F} {s : Scheme} {p : Position} {taken : List Position}
  {t t' t₀ : Tape F s}

/-- The tape is extended, maybe after it was reset to a position that is not smaller than `p`. -/
def Tape.Goes (lib : Library F) (p : Position) (taken : List Position) (t t' : Tape F s) : Prop :=
  Extends lib t t' ∨ ∃ q ∈ taken, p ≤ q ∧ Resumes lib q t t'

theorem Interlude.goes (hi : Interlude lib p taken t t') (hg : t.registry.Within lib) :
    Tape.Goes lib p taken t t' := by
  cases hi with
  | register hc => exact Or.inl (Tape.extends_register hc)
  | setVector v => exact Or.inl (.of_appended rfl rfl (.refl _) (Nat.le_refl _))
  | append hsource hc => exact Or.inl (Tape.extends_append hsource hc)
  | erase hq hle hc =>
    rcases Tape.erase_resumes hg hc with rfl | hresumes
    · exact Or.inl (.refl _)
    · exact Or.inr ⟨_, hq, hle, hresumes⟩
  | eraseWith hscratch hq hle hc =>
    rcases Tape.eraseWith_resumes hg hscratch hc with rfl | hresumes
    · exact Or.inl (.refl _)
    · exact Or.inr ⟨_, hq, hle, hresumes⟩

theorem Call.Behind.goes [One F] {c : Call F} {a : Answer F} {j j' : Journal}
    (hbehind : c.Behind p taken) (lib : Library F)
    (hc : (t.call c).outcome j = (.ok (a, t'), j')) :
    Tape.Goes lib p taken t t' := by
  rcases Tape.call_cases hc with hextends | ⟨q, rfl, hresumes⟩
  · exact Or.inl hextends
  · exact Or.inr ⟨q, hbehind.1, hbehind.2, hresumes⟩

theorem Tape.Goes.later (hgoes : Tape.Goes lib p taken t t') : Tape.Later lib t t' := by
  rcases hgoes with hextends | ⟨q, -, -, hresumes⟩
  · exact hextends.toLater
  · exact hresumes.later

theorem Tape.Goes.intact (hgoes : Tape.Goes lib p taken t t')
    (htaken : ∀ q ∈ taken, p ≤ q → t₀.position.Precedes q) (h : t₀.Intact t) : t₀.Intact t' := by
  rcases hgoes with hextends | ⟨q, hq, hle, hresumes⟩
  · exact h.extends hextends
  · exact h.resumes (htaken q hq hle) hresumes

/-- A linear tape neither appends nor erases, so it records in calls alone. -/
theorem Interlude.echo_eq (hi : Interlude lib p taken t t') (hs : s = .linear) (n : Nat)
    (u : Tape F s) : t'.echo n u = t.echo n u := by
  cases hi with
  | register hc =>
    obtain ⟨-, heq⟩ := Tape.register_cases hc
    rw [heq]
    rfl
  | setVector v => rfl
  | append => cases hs
  | erase => cases hs
  | eraseWith => cases hs

end Steps

/-! ## Many steps -/

section Runs

variable {F : Type} [One F] {lib : Library F} {s : Scheme} {p : Position}
  {taken taken' : List Position} {t t' t₀ : Tape F s} {log : List (Call F × Answer F × Position)}

theorem Onward.later (ho : Onward lib p taken t log taken' t') (hg : t.registry.Within lib) :
    Tape.Later lib t t' := by
  induction ho with
  | refl => exact .refl _
  | mark _ ih => exact ih hg
  | interlude hi _ ih =>
    have hlater := (hi.goes hg).later
    exact hlater.trans (ih (hlater.within hg))
  | call hc hbehind _ ih =>
    have hlater := (hbehind.goes lib hc).later
    exact hlater.trans (ih (hlater.within hg))

/-- Positions that are taken behind `t₀` have all their parts behind it, so it is there to stay. -/
theorem Onward.intact (ho : Onward lib p taken t log taken' t') (hg : t.registry.Within lib)
    (htaken : ∀ q ∈ taken, p ≤ q → t₀.position.Precedes q) (h : t₀.Intact t) :
    t₀.Intact t' ∧ ∀ q ∈ taken', p ≤ q → t₀.position.Precedes q := by
  induction ho with
  | refl => exact ⟨h, htaken⟩
  | mark _ ih =>
    refine ih hg (fun q hq hle => ?_) h
    rcases List.mem_cons.1 hq with rfl | hq
    · exact h.precedes
    · exact htaken q hq hle
  | interlude hi _ ih =>
    have hgoes := hi.goes hg
    exact ih (hgoes.later.within hg) htaken (hgoes.intact htaken h)
  | call hc hbehind _ ih =>
    have hgoes := hbehind.goes lib hc
    exact ih (hgoes.later.within hg) htaken (hgoes.intact htaken h)

/-- All calls again, on a linear tape that was brought to where the first of them was made. -/
theorem Onward.yields_callAll (ho : Onward lib p taken t log taken' t') (hs : s = .linear)
    (hg : t.registry.Within lib) {u : Tape F s} (hknown : t'.registry.Grows u.registry) (n : Nat) :
    ((t.echo n u).callAll (log.map Prod.fst)).Yields (log.map Prod.snd, t'.echo n u) := by
  induction ho with
  | refl => exact Run.yields_pure _
  | mark _ ih => exact ih hg hknown
  | interlude hi _ ih =>
    rw [← hi.echo_eq hs]
    exact ih ((hi.goes hg).later.within hg) hknown
  | call hc hbehind hrest ih =>
    have hlater := (hbehind.goes lib hc).later
    have hg' := hlater.within hg
    have hall := hlater.trans (hrest.later hg')
    have hfirst := Tape.yields_call_echo (n := n) hg
      (fun token f hf => hknown token f (hall.known token f hf)) hc
    exact hfirst.bind ((ih hg' hknown).bind (Run.yields_pure _))

end Runs

/-! ## Back to the position -/

section Back

variable {F : Type} {lib : Library F} {s : Scheme} {t t' t₀ : Tape F s} {h h₀ : History F}

/-- Of all valid positions of a tape, only its end is not smaller than its end. -/
theorem Aligned.eq_position (ht : Aligned lib t h) {q : Position} (hq : q ∈ h.positions)
    (hle : t.position ≤ q) : q = t.position := by
  obtain ⟨n, hn⟩ : ∃ n, h.Valid q n := by
    rcases List.mem_cons.1 hq with rfl | hq
    · exact ⟨0, h.valid_zero⟩
    · obtain ⟨m, hm, rfl⟩ := List.mem_map.1 hq
      exact ⟨m.2, Or.inr hm⟩
  obtain ⟨hle', heq⟩ := ht.eq_place hn
  have hge := (ht.mark.le_iff (h.valid_mark _) (hn.mark _)).1 hle
  rw [heq, ht.position_eq, List.take_of_length_le hge]

/-- A tape with the recording of another one has its history, too. -/
theorem Aligned.later (ht₀ : Aligned lib t₀ h₀) (hlater : Tape.Later lib t₀ t)
    (hrecording : t.recording = t₀.recording.withLargest t.recording.largest)
    (hmark : t.supply.mark = t₀.supply.mark) : Aligned lib t h₀ := by
  obtain ⟨hspells, hcounted, hreadable, hwithin, hmarked⟩ := ht₀
  refine ⟨?_, hmark.trans hcounted, fun x hx => (hreadable x hx).mono hlater.known,
    hlater.within hwithin, ?_⟩
  · rw [hrecording, hlater.settings]
    exact hspells.withLargest hlater.largest
  · rw [hlater.settings]
    exact hmarked

theorem Supply.eq_of_mark {supply supply' : Supply .linear} (h : supply.mark = supply'.mark) :
    supply = supply' := by
  cases supply
  cases supply'
  exact congrArg _ h

/-- A supply that has not gone back since can be rewound. -/
theorem Supply.exists_rewindTo {supply supply' : Supply s} (h : supply.mark ≤ supply'.mark) :
    ∃ supply₁, supply'.rewindTo supply.mark = .ok supply₁ ∧ supply₁.mark = supply.mark := by
  cases s with
  | linear =>
    cases supply'
    exact ⟨.linear supply.mark, if_pos h, rfl⟩
  | reuse =>
    cases supply
    cases supply'
    exact ⟨_, rfl, rfl⟩

theorem Tape.Intact.exists_resetTo (h : t₀.Intact t) (lib : Library F) :
    ∃ t', (t.resetTo t₀.position).Yields t' ∧ Tape.Later lib t t' ∧
      t'.recording = t₀.recording.withLargest t.recording.largest ∧
      t'.supply.mark = t₀.supply.mark := by
  obtain ⟨supply, hsupply, hmark⟩ := Supply.exists_rewindTo h.counter
  exact ⟨_, Tape.yields_resetTo_of_rewindTo h.contains hsupply,
    ⟨rfl, fun _ _ hf => hf, id, Nat.le_refl _⟩, h.recording.truncate_endPosition _, hmark⟩

end Back

section Rewinding

variable {F : Type} [Zero F] [One F] [FixedWidth F] {lib : Library F} {s : Scheme}
  {t₀ t₁ t : Tape F s} {h₀ : History F} {taken taken' : List Position}
  {log log' : List (Call F × Answer F × Position)}

/-- A position that is taken from a tape `t₀` belongs to every tape `t` that comes out of it without
going back to before the position.  Resetting `t` to the position gives the streams of `t₀` back,
chunk by chunk, and with them the statements and the counter.  On a linear tape the calls that led
from `t₀` to `t₁` can then be made again, with the same answers and positions and with the same
streams after them; only the largest identifier that a recording remembers is not set back. -/
theorem rewinding_restores_the_tape (hr : Reached lib t₀ h₀)
    (hfirst : Onward lib t₀.position (t₀.position :: h₀.positions) t₀ log taken t₁)
    (hrest : Onward lib t₀.position taken t₁ log' taken' t) :
    t.Contains t₀.position ∧
    ∃ t₂, (t.resetTo t₀.position).Yields t₂ ∧ t₂.position = t₀.position ∧
      t₂.recording = t₀.recording.withLargest t.recording.largest ∧
      t₀.decoded.Yields h₀.statements ∧ t₂.decoded.Yields h₀.statements ∧
      t₂.supply.mark = t₀.supply.mark ∧
      (s = .linear → t₂.supply = t₀.supply ∧
        ∃ t₃, ((t₂.setActive t₀.active).callAll (log.map Prod.fst)).Yields
            (log.map Prod.snd, t₃) ∧
          t₃.position = t₁.position ∧ t₃.supply = t₁.supply ∧
          t₃.recording = t₁.recording.withLargest t₃.recording.largest) := by
  have ht₀ := hr.aligned
  have hstart : ∀ q ∈ t₀.position :: h₀.positions, t₀.position ≤ q → t₀.position.Precedes q := by
    intro q hq hle
    have heq : q = t₀.position := by
      rcases List.mem_cons.1 hq with heq | hq
      · exact heq
      · exact ht₀.eq_position hq hle
    exact heq ▸ .refl _
  have hlater₁ := hfirst.later ht₀.within
  have hg₁ := hlater₁.within ht₀.within
  have hlater := hlater₁.trans (hrest.later hg₁)
  obtain ⟨hintact₁, htaken⟩ := hfirst.intact ht₀.within hstart (.refl t₀)
  have hintact := (hrest.intact hg₁ htaken hintact₁).1
  obtain ⟨t₂, hreset, hlater₂, hrecording, hmark⟩ := hintact.exists_resetTo lib
  have hlargest : t₂.recording.largest = t.recording.largest := by
    rw [hrecording]
    rfl
  have hback : Aligned lib t₂ h₀ :=
    ht₀.later (hlater.trans hlater₂) (by rw [hlargest, hrecording]) hmark
  have hposition : t₂.position = t₀.position := by
    rw [hback.position_eq, ht₀.position_eq, hlater₂.settings, hlater.settings]
  refine ⟨hintact.contains, t₂, hreset, hposition, hrecording, ht₀.yields_decoded,
    hback.yields_decoded, hmark, ?_⟩
  rintro rfl
  have hsupply : t₂.supply = t₀.supply := Supply.eq_of_mark hmark
  have hknown := ((hrest.later hg₁).trans hlater₂).known
  have hagain := hfirst.yields_callAll rfl ht₀.within hknown t.recording.largest
  rw [Tape.echo_eq_setActive hrecording hlater.largest hsupply] at hagain
  exact ⟨hsupply, _, hagain, rfl, rfl, rfl⟩

end Rewinding

/-- A linear tape with an input and an assignment, in chunks that hold next to nothing. It records
an assignment and a block that is too long for its chunk, is reset to where it was before and
records an input. -/
theorem exists_detour : ∃ (t₀ t₁ t : Tape Int .linear) (h₀ : History Int)
    (taken taken' : List Position) (log log' : List (Call Int × Answer Int × Position)),
    Reached .counting t₀ h₀ ∧
      Onward .counting t₀.position (t₀.position :: h₀.positions) t₀ log taken t₁ ∧
      Onward .counting t₀.position taken t₁ log' taken' t ∧
      h₀.statements = [.input 1, .normal 2 [(3, 1)]] ∧ t₀.supply = .linear 2 ∧
      (log.map fun e => e.2.1).head? = some (.identifier 3) ∧ t₁.supply = .linear 3 := by
  have hcreate : Reached (.counting : Library Int) (s := .linear) _ _ :=
    .create (show Tape.create ⟨2, 1, 1, 2, 3, true⟩ #[] = _ from rfl)
  have hregister := hcreate.step (.register
    (show Tape.register _ ((.counting : Library Int).function 0) = _ from rfl))
  have hinput := hregister.step (.registerInput
    (show (Tape.registerInput _).outcome {} = _ from rfl))
  have hstore := hinput.step (.store (show (Tape.store _ 0 [(3, 1)]).outcome {} = _ from rfl))
  refine ⟨_, _, _, _, _, _, _, _, hstore,
    .call (c := .store 0 [(5, 2)]) (show (Tape.call _ _).outcome {} = _ from rfl) trivial
    (.call (c := .pushBlock 0 1 5 fun fixed dynamic => do
          let fixed ← fixed.putAll [.uint8 5]
          let dynamic ← dynamic.putAll [.identifier 7, .uint8 0]
          return (fixed, dynamic))
        (show (Tape.call _ _).outcome {} = _ from rfl) trivial .refl),
    .call (c := .resetTo _) (show (Tape.call _ _).outcome {} = _ from rfl)
      ⟨List.mem_cons_self .., Position.le_refl _⟩
    (.call (c := .registerInput) (show (Tape.call _ _).outcome {} = _ from rfl) trivial .refl),
    rfl, rfl, rfl, rfl⟩

/-- The assignment gets the same identifier again once the detour is taken back. -/
theorem rewinding_restores_the_tape_of_detour :
    ∃ (t₀ t₁ t t₂ t₃ : Tape Int .linear) (h₀ : History Int) (taken taken' : List Position)
      (log log' : List (Call Int × Answer Int × Position)),
      Reached .counting t₀ h₀ ∧
      Onward .counting t₀.position (t₀.position :: h₀.positions) t₀ log taken t₁ ∧
      Onward .counting t₀.position taken t₁ log' taken' t ∧
      (t.resetTo t₀.position).Yields t₂ ∧
      t₂.decoded.Yields [.input 1, .normal 2 [(3, 1)]] ∧ t₂.supply = .linear 2 ∧
      (log.map fun e => e.2.1).head? = some (.identifier 3) ∧
      ((t₂.setActive t₀.active).callAll (log.map Prod.fst)).Yields (log.map Prod.snd, t₃) ∧
      t₃.supply = .linear 3 ∧ t₃.position = t₁.position := by
  obtain ⟨t₀, t₁, t, h₀, taken, taken', log, log', hr, hfirst, hrest, hstatements, hsupply₀,
    hanswer, hsupply₁⟩ := exists_detour
  obtain ⟨-, t₂, hreset, -, -, -, hdecoded, -, hlinear⟩ :=
    rewinding_restores_the_tape hr hfirst hrest
  obtain ⟨hsupply, t₃, hagain, hposition, hsupply₃, -⟩ := hlinear rfl
  rw [hstatements] at hdecoded
  exact ⟨t₀, t₁, t, t₂, t₃, h₀, taken, taken', log, log', hr, hfirst, hrest, hreset, hdecoded,
    hsupply.trans hsupply₀, hanswer, hagain, hsupply₃.trans hsupply₁, hposition⟩

end Autodiff
