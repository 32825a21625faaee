import Autodiff.Proofs.Recording.Lockstep
import Autodiff.Proofs.Tape.Erasing
import Autodiff.Proofs.Tape.Session

/-!
# Tapes that cannot be told apart

The largest identifier that a recording remembers is read in one place only, when the vector is made
to hold all identifiers of a tape.  Two tapes that differ in nothing else therefore give the same
answers in every session that does not get there, and in every session if what one of them remembers
is no larger than what the other knows of anyway.
-/

namespace Autodiff

open Run

/-! ## The largest identifier of a supply -/

namespace Supply

theorem largest_le_generate {s : Scheme} {supply supply' : Supply s} {i : Nat}
    (h : supply.generate = .ok (i, supply')) : supply.largest ≤ supply'.largest := by
  rcases generate_cases h with ⟨-, hi, -, hlargest, -⟩ | ⟨-, hlargest⟩
  · rw [hlargest, hi]
    exact Nat.le_succ _
  · exact Nat.le_of_eq hlargest.symm

theorem largest_le_claim {s : Scheme} {supply supply' : Supply s} {old i : Nat}
    (h : supply.claim old = .ok (i, supply')) : supply.largest ≤ supply'.largest := by
  rcases claim_cases h with h | ⟨-, -, -, rfl⟩
  · exact largest_le_generate h
  · exact Nat.le_refl _

theorem matches_generate {s : Scheme} (supply : Supply s) :
    Matches Eq (fun r r' => r = r' ∧ supply.largest ≤ r.2.largest) supply.generate
      supply.generate :=
  .refl fun _ hr => ⟨rfl, largest_le_generate hr⟩

theorem matches_claim {s : Scheme} (supply : Supply s) (old : Nat) :
    Matches Eq (fun r r' => r = r' ∧ supply.largest ≤ r.2.largest) (supply.claim old)
      (supply.claim old) :=
  .refl fun _ hr => ⟨rfl, largest_le_claim hr⟩

end Supply

/-! ## Twins -/

namespace Tape

variable {F : Type} {lib : Library F} {n l : Nat} {t t' : Tape F .reuse}

/-- `t'` differs from `t` by the identifier `n` that its recording remembers, and `t` knows of an
identifier that is `l` at least. -/
structure Twin (lib : Library F) (n l : Nat) (t t' : Tape F .reuse) : Prop where
  within : t.registry.Within lib
  eq : t' = t.recalling n
  le : l ≤ t.largestIdentifier

/-- The same answer, and twins. -/
def Twins {α : Type} (lib : Library F) (n l : Nat) (a b : α × Tape F .reuse) : Prop :=
  a.1 = b.1 ∧ Twin lib n l a.2 b.2

theorem recalling_zero (t : Tape F .reuse) : t.recalling 0 = t := by
  rw [recalling, Recording.recalling, Nat.max_zero]
  rfl

theorem Twin.refl (hwithin : t.registry.Within lib) : Twin lib 0 0 t t :=
  ⟨hwithin, t.recalling_zero.symm, Nat.zero_le _⟩

theorem Twin.eq_self (h : Twin lib 0 l t t') : t' = t := by
  rw [h.eq, recalling_zero]

namespace Twin

/-! ### Recording -/

theorem append (h : Twin lib n l t t') (x : Statement F) {supply : Supply .reuse}
    (hsupply : t.supply.largest ≤ supply.largest) :
    Twin lib n l { t with recording := t.recording.append x, supply := supply }
      { t' with recording := t'.recording.append x, supply := supply } := by
  obtain ⟨hwithin, rfl, hle⟩ := h
  refine ⟨hwithin, ?_, ?_⟩
  · show { t with recording := (t.recording.recalling n).append x, supply := supply } = _
    rw [Recording.recalling_append]
    rfl
  · show l ≤ max supply.largest (max t.recording.largest x.largest)
    rw [largestIdentifier] at hle
    omega

theorem record (h : Twin lib n l t t') (x : Statement F) :
    InStep (fun r r' => Twin lib n l { t with recording := r } { t' with recording := r' })
      (t.recording.record x) (t'.recording.record x) := by
  have happend := h.append x (Nat.le_refl t.supply.largest)
  obtain ⟨-, rfl, -⟩ := h
  exact (abreast_note _).bind_same fun u => abreast_pure happend

theorem setActive (h : Twin lib n l t t') (active : Bool) :
    Twin lib n l (t.setActive active) (t'.setActive active) := by
  obtain ⟨hwithin, rfl, hle⟩ := h
  exact ⟨hwithin, rfl, hle⟩

theorem register (h : Twin lib n l t t') (key : Nat) :
    Matches Eq (Twins lib n l) (t.register (lib.function key))
      (t'.register (lib.function key)) := by
  obtain ⟨hwithin, rfl, hle⟩ := h
  apply Matches.bind_same
  intro result hregister
  exact .answer ⟨rfl, hwithin.register hregister, rfl, hle⟩

theorem release (h : Twin lib n l t t') (identifier : Nat) :
    Matches Eq (Twin lib n l) (t.release identifier) (t'.release identifier) := by
  obtain ⟨hwithin, rfl, hle⟩ := h
  apply Matches.bind_same
  intro supply hsupply
  refine .answer ⟨hwithin, rfl, ?_⟩
  show l ≤ max supply.largest t.recording.largest
  rw [Supply.largest_release hsupply]
  exact hle

theorem store (h : Twin lib n l t t') (target : Nat) (arguments : List (F × Nat)) :
    InStep (Twins lib n l) (t.store target arguments) (t'.store target arguments) := by
  have hrelease := h.release target
  have happend (x : Statement F) {supply : Supply .reuse}
      (hle : t.supply.largest ≤ supply.largest) := h.append x hle
  obtain ⟨-, rfl, -⟩ := h
  refine Abreast.ite (fun _ => ?_) fun _ => ?_
  · exact (abreast_liftM hrelease).bind fun u u' hu => abreast_pure ⟨rfl, hu⟩
  · apply (inStep_same _).bind_same
    intro kind
    apply (abreast_note _).bind_same
    intro _
    apply (abreast_liftM (t.supply.matches_claim target)).bind
    rintro ⟨identifier, supply⟩ _ ⟨rfl, hle⟩
    exact abreast_pure ⟨rfl, happend _ hle⟩

theorem registerInput (h : Twin lib n l t t') :
    InStep (Twins lib n l) t.registerInput t'.registerInput := by
  have happend (x : Statement F) {supply : Supply .reuse}
      (hle : t.supply.largest ≤ supply.largest) := h.append x hle
  have hself := h
  obtain ⟨-, rfl, -⟩ := h
  refine Abreast.ite (fun _ => ?_) fun _ => ?_
  · apply (abreast_note _).bind_same
    intro _
    apply (abreast_liftM t.supply.matches_generate).bind
    rintro ⟨identifier, supply⟩ _ ⟨rfl, hle⟩
    exact abreast_pure ⟨rfl, happend _ hle⟩
  · exact abreast_pure ⟨rfl, hself⟩

theorem registerOutput [One F] (h : Twin lib n l t t') (identifier : Nat) :
    InStep (Twins lib n l) (t.registerOutput identifier) (t'.registerOutput identifier) := by
  have hstore := h.store passive [(1, identifier)]
  have hself := h
  obtain ⟨-, rfl, -⟩ := h
  refine Abreast.ite (fun _ => ?_) fun _ => ?_
  · exact abreast_pure ⟨rfl, hself⟩
  · apply hstore.bind
    rintro ⟨output, u⟩ ⟨_, u'⟩ ⟨rfl, hu⟩
    exact (abreast_liftM (hu.release identifier)).bind fun u u' hu => abreast_pure ⟨rfl, hu⟩

theorem pushBlock (h : Twin lib n l t t') (token fixedSize dynamicSize : Nat)
    (write : Writer → Writer → Except Fault (Writer × Writer)) :
    InStep (Twins lib n l) (t.pushBlock token fixedSize dynamicSize write)
      (t'.pushBlock token fixedSize dynamicSize write) := by
  have happend (x : Statement F) := h.append x (Nat.le_refl t.supply.largest)
  have hself := h
  obtain ⟨hwithin, rfl, -⟩ := h
  apply (hwithin.inStep_expect token).bind
  rintro f _ ⟨rfl, hf⟩
  refine Abreast.check rfl ?_
  refine Abreast.ite (fun _ => ?_) fun _ => ?_
  · apply (Recording.inStep_prepareBlock t.recording fixedSize dynamicSize).bind_same
    intro u
    apply (inStep_same _).bind_same
    rintro ⟨fixed, dynamic⟩
    apply (inStep_checkBlock hf token fixed dynamic).bind_same
    intro u
    apply (abreast_note _).bind_same
    intro u
    exact abreast_pure ⟨rfl, happend _⟩
  · exact abreast_pure ⟨rfl, hself⟩

/-! ### Resetting and editing -/

theorem truncate (h : Twin lib n l t t') (p : Position) :
    Twin lib n l { t with recording := t.recording.truncate p }
      { t' with recording := t'.recording.truncate p } := by
  obtain ⟨hwithin, rfl, hle⟩ := h
  exact ⟨hwithin, rfl, hle⟩

theorem resetTo (h : Twin lib n l t t') (p : Position) :
    InStep (Twin lib n l) (t.resetTo p) (t'.resetTo p) := by
  have htruncate := h.truncate p
  obtain ⟨-, rfl, -⟩ := h
  refine Abreast.check rfl ?_
  apply (inStep_same _).bind_same
  intro dropped
  apply (abreast_note _).bind_same
  intro u
  show InStep _ (liftM (t.supply.rewindTo p.counter) >>= _)
    (liftM (t.supply.rewindTo p.counter) >>= _)
  rw [Supply.rewindTo_reuse]
  exact abreast_pure htruncate

/-- After a reset nothing is left of the difference. -/
theorem reset [Zero F] (h : Twin lib n l t t') :
    InStep (Twin lib 0 0) t.reset t'.reset := by
  obtain ⟨hwithin, rfl, hle⟩ := h
  apply (abreast_note _).bind_same
  intro u
  exact abreast_pure (.refl hwithin)

theorem appendRefusal_eq {source source' : Tape F .reuse} {m k : Nat} (h : Twin lib n l t t')
    (hsource : Twin lib m k source source') (p q : Position) :
    t'.appendRefusal source' p q = t.appendRefusal source p q := by
  obtain ⟨-, rfl, -⟩ := h
  obtain ⟨-, rfl, -⟩ := hsource
  have htokens (tokens : List Nat) :
      (t.recalling n).tokensRefusal (source.recalling m) tokens =
        t.tokensRefusal source tokens := by
    induction tokens with
    | nil => rfl
    | cons token tokens ih =>
      rw [tokensRefusal, tokensRefusal, ih]
      rfl
  unfold appendRefusal
  simp only [htokens]
  rfl

theorem appendFrom (h : Twin lib n l t t') {source source' : Tape F .reuse} {m k : Nat}
    (hsource : Twin lib m k source source') (p q : Position) :
    InStep (fun a b => a.2 = b.2 ∧
        Twin lib n l { t with recording := a.1 } { t' with recording := b.1 })
      (t.recording.appendFrom source.recording source.registry p q)
      (t'.recording.appendFrom source'.recording source'.registry p q) := by
  have hself := h
  obtain ⟨-, rfl, -⟩ := h
  obtain ⟨hknown, rfl, -⟩ := hsource
  have hstep (acc acc' : Recording F × Nat) (x : Statement F)
      (hacc : acc.2 = acc'.2 ∧
        Twin lib n l { t with recording := acc.1 }
          { t.recalling n with recording := acc'.1 }) :
      InStep (fun a b => a.2 = b.2 ∧
          Twin lib n l { t with recording := a.1 } { t.recalling n with recording := b.1 })
        (do let r ← acc.1.record x; return (r, acc.2 + 1))
        (do let r ← acc'.1.record x; return (r, acc'.2 + 1)) := by
    obtain ⟨hcount, hr⟩ := hacc
    rw [hcount]
    exact (hr.record x).bind fun r r' hr => abreast_pure ⟨rfl, hr⟩
  exact Recording.inStep_walk hknown hstep .forward p q ⟨rfl, hself⟩

theorem appendTo (h : Twin lib n l t t') {source source' : Tape F .reuse} {m k : Nat}
    (hsource : Twin lib m k source source') (p q : Position) :
    InStep (Matches Eq (Twin lib n l)) (t.append source p q) (t'.append source' p q) := by
  have hrefusal := h.appendRefusal_eq hsource p q
  unfold Tape.append
  rw [hrefusal]
  apply (inStep_same _).bind_same
  intro refusal
  cases refusal with
  | some refusal => exact abreast_pure (.fault rfl)
  | none =>
    apply (h.appendFrom hsource p q).bind
    rintro ⟨r, i⟩ ⟨r', _⟩ ⟨rfl, hr⟩
    apply (abreast_note _).bind_same
    intro u
    exact abreast_pure (.answer hr)

theorem eraseWith (h : Twin lib n l t t') {scratch scratch' : Tape F .reuse} {m k : Nat}
    (hscratch : Twin lib m k scratch scratch') (p q : Position) :
    InStep (fun a b => a.1 = b.1 ∧ Twin lib n l a.2.1 b.2.1 ∧ Twin lib m k a.2.2 b.2.2)
      (t.eraseWith scratch p q) (t'.eraseWith scratch' p q) := by
  have haway := hscratch.appendTo h q t.position
  have hreset := h.resetTo p
  -- Both tapes are written out below for the conditions to agree by unfolding; a refusal leaves the
  -- tapes as they are and needs the relation again.
  have hself := h
  have hself' := hscratch
  obtain ⟨-, rfl, -⟩ := h
  obtain ⟨-, rfl, -⟩ := hscratch
  refine Abreast.ite (fun _ => abreast_pure ⟨rfl, hself, hself'⟩) fun _ => ?_
  refine Abreast.ite (fun _ => abreast_pure ⟨rfl, hself, hself'⟩) fun _ => ?_
  apply haway.bind
  rintro _ _ (@⟨u, u', hu⟩ | @⟨_, _, rfl⟩)
  · apply (inStep_same _).bind_same
    intro erased
    apply (abreast_note _).bind_same
    intro v
    apply hreset.bind
    intro t₁ t₁' ht₁
    have hback := ht₁.appendTo hu scratch.position u.position
    have hclear := hu.resetTo scratch.position
    obtain ⟨-, rfl, -⟩ := hu
    apply hback.bind
    intro result result' hresult
    apply hclear.bind
    intro scratch₁ scratch₁' hscratch₁
    cases hresult with
    | answer ht₂ => exact abreast_pure ⟨rfl, ht₂, hscratch₁⟩
    | fault hsame =>
      subst hsame
      exact abreast_pure ⟨rfl, ht₁, hscratch₁⟩
  · exact abreast_pure ⟨rfl, hself, hself'⟩

theorem scratch (h : Twin lib n l t t') : Matches Eq (Twin lib 0 0) t.scratch t'.scratch := by
  obtain ⟨hwithin, rfl, -⟩ := h
  apply Matches.bind_same
  intro r _
  exact .answer (.refl hwithin)

theorem erase (h : Twin lib n l t t') (p q : Position) :
    InStep (Twins lib n l) (t.erase p q) (t'.erase p q) := by
  apply (abreast_liftM h.scratch).bind
  intro scratch scratch' hscratch
  apply (h.eraseWith hscratch p q).bind
  rintro ⟨result, u, scratch₁⟩ ⟨_, u', scratch₁'⟩ ⟨rfl, hu, -⟩
  exact abreast_pure ⟨rfl, hu⟩

/-! ### Sweeps -/

theorem withVector (h : Twin lib n l t t') (x : Except Fault (Adjoints F)) :
    Matches Eq (Twin lib n l) (do let v ← x; return { t with adjoints := v })
      (do let v ← x; return { t' with adjoints := v }) := by
  obtain ⟨hwithin, rfl, hle⟩ := h
  apply Matches.bind_same
  intro v _
  exact .answer ⟨hwithin, rfl, hle⟩

section Sweeps

variable [Zero F]

theorem prepare (h : Twin lib n l t t') {management : Management}
    (hn : management = .automatic → n ≤ l) :
    Twin lib n l (t.prepare management) (t'.prepare management) := by
  obtain ⟨hwithin, rfl, hle⟩ := h
  cases management with
  | manual => exact ⟨hwithin, rfl, hle⟩
  | automatic =>
    have hsame : (t.recalling n).largestIdentifier = t.largestIdentifier := by
      have hnl := hn rfl
      rw [largestIdentifier] at hle
      show max t.supply.largest (max t.recording.largest n) =
        max t.supply.largest t.recording.largest
      omega
    refine ⟨hwithin, ?_, hle⟩
    show { t.recalling n with adjoints := t.adjoints.ensure (t.recalling n).largestIdentifier } = _
    rw [hsame]
    rfl

theorem clearBetween (h : Twin lib n l t t') {management : Management}
    (hn : management = .automatic → n ≤ l) (p q : Position) :
    Matches Eq (Twin lib n l) (t.clearBetween p q management) (t'.clearBetween p q management) := by
  have hprepare := h.prepare hn
  have hclear (late early : Position) := hprepare.withVector
    ((t.prepare management).recording.clearTargets late early (t.prepare management).adjoints)
  obtain ⟨hwithin, heq, hle⟩ := hprepare
  unfold Tape.clearBetween
  simp only [heq] at hclear ⊢
  exact hclear _ _

variable [Add F] [Mul F] [BEq F]

theorem evaluate (h : Twin lib n l t t') {management : Management}
    (hn : management = .automatic → n ≤ l) (d : Direction) (p q : Position) :
    InStep (Twin lib n l) (t.evaluate d p q management) (t'.evaluate d p q management) := by
  obtain ⟨hwithin, heq, hle⟩ := h.prepare hn
  refine Abreast.check rfl ?_
  show InStep _ ((t.prepare management).recording.replay _ d p q _ >>= _)
    ((t'.prepare management).recording.replay _ d p q _ >>= _)
  rw [heq]
  apply (Recording.inStep_replay hwithin d p q _).bind_same
  intro v
  exact abreast_pure ⟨hwithin, rfl, hle⟩

theorem evaluateAll (h : Twin lib n l t t') (hn : n ≤ l) (d : Direction) :
    InStep (Twin lib n l) (t.evaluateAll d) (t'.evaluateAll d) := by
  have hposition : t'.position = t.position := by
    rw [h.eq]
    rfl
  cases d with
  | forward =>
    rw [Tape.evaluateAll, Tape.evaluateAll, hposition]
    exact h.evaluate (fun _ => hn) .forward .zero t.position
  | reverse =>
    rw [Tape.evaluateAll, Tape.evaluateAll, hposition]
    exact h.evaluate (fun _ => hn) .reverse t.position .zero

theorem evaluateWith (h : Twin lib n l t t') (d : Direction) (p q : Position) (v : Adjoints F) :
    InStep Eq (t.evaluateWith d p q v) (t'.evaluateWith d p q v) := by
  obtain ⟨hwithin, rfl, -⟩ := h
  exact Abreast.check rfl (Recording.inStep_replay hwithin d p q v)

end Sweeps

/-! ### Slots -/

section Slots

variable [Zero F]

theorem gradient (h : Twin lib n l t t') (identifier : Nat) :
    InStep Eq (t.gradient identifier) (t'.gradient identifier) := by
  obtain ⟨-, rfl, -⟩ := h
  show InStep Eq (t.gradient identifier) (t.gradient identifier)
  unfold Tape.gradient
  cases t.adjoints[identifier]? with
  | some x => exact abreast_pure rfl
  | none => exact (abreast_note _).bind_same fun u => abreast_pure rfl

theorem getGradient (h : Twin lib n l t t') (identifier : Nat) (checking : Checking) :
    InStep Eq (t.getGradient identifier checking) (t'.getGradient identifier checking) := by
  obtain ⟨-, rfl, -⟩ := h
  show InStep Eq (t.getGradient identifier checking) (t.getGradient identifier checking)
  unfold Tape.getGradient
  cases t.adjoints[identifier]? with
  | some x => exact abreast_pure rfl
  | none =>
    cases checking with
    | relaxed =>
      have hdummy : InStep Eq (t.dummyGradient identifier) (t.dummyGradient identifier) :=
        (abreast_note _).bind_same fun u => abreast_pure rfl
      exact hdummy.bind_same fun x => abreast_pure rfl
    | strict => exact abreast_pure rfl
    | off => exact abreast_throw rfl

theorem modifyGradient (h : Twin lib n l t t') (identifier : Nat) (checking : Checking)
    (f : F → F) :
    Matches Eq (Matches Eq (Twins lib n l)) (t.modifyGradient identifier checking f)
      (t'.modifyGradient identifier checking f) := by
  obtain ⟨hwithin, rfl, hle⟩ := h
  have hmodify (v : Adjoints F) :
      Matches Eq (Matches Eq (Twins lib n l))
        (if checking = .strict ∧ v.size ≤ identifier then
          return .error (Refusal.outOfBounds identifier v.size)
        else do
          let x ← v.fetch identifier
          let v ← v.put identifier (f x)
          return .ok (f x, { t with adjoints := v }))
        (if checking = .strict ∧ v.size ≤ identifier then
          return .error (Refusal.outOfBounds identifier v.size)
        else do
          let x ← v.fetch identifier
          let v ← v.put identifier (f x)
          return .ok (f x, { t.recalling n with adjoints := v })) := by
    split
    · exact .answer (.fault rfl)
    · apply Matches.bind_same
      intro x _
      apply Matches.bind_same
      intro w _
      exact .answer (.answer ⟨rfl, hwithin, rfl, hle⟩)
  exact hmodify _

theorem seed (h : Twin lib n l t t') (identifier : Nat) (x : F) :
    Matches Eq (Twin lib n l) (t.seed identifier x) (t'.seed identifier x) := by
  have hput := h.withVector ((t.adjoints.ensure identifier).put identifier x)
  have hself := h
  obtain ⟨-, rfl, -⟩ := h
  unfold Tape.seed
  split
  · exact .answer hself
  · exact hput

end Slots

/-! ### Sessions -/

theorem answered {α : Type} {c c' : Run (α × Tape F .reuse)} (h : InStep (Twins lib n l) c c')
    (answer : α → Answer F) :
    InStep (Twins lib n l) (do let (a, t) ← c; return (answer a, t))
      (do let (a, t) ← c'; return (answer a, t)) := by
  apply h.bind
  rintro ⟨a, u⟩ ⟨_, u'⟩ ⟨rfl, hu⟩
  exact abreast_pure ⟨rfl, hu⟩

theorem done {c c' : Run (Tape F .reuse)} (h : InStep (Twin lib n l) c c') :
    InStep (Twins lib n l) (do let t ← c; return (Answer.done (F := F), t))
      (do let t ← c'; return (Answer.done (F := F), t)) :=
  h.bind fun _ _ hu => abreast_pure ⟨rfl, hu⟩

/-- What only reads a tape leaves it as it is. -/
theorem told (h : Twin lib n l t t') {α : Type} {c c' : Run α} (hc : InStep Eq c c')
    (answer : α → Answer F) :
    InStep (Twins lib n l) (do let a ← c; return (answer a, t))
      (do let a ← c'; return (answer a, t')) :=
  hc.bind fun _ _ hab => abreast_pure ⟨congrArg answer hab, h⟩

section Sessions

variable [Zero F] [One F] [Add F] [Mul F] [BEq F] [FixedWidth F]

/-- One request but a full reset: twins answer alike, and they are left as twins. -/
theorem perform_of_ne_reset (h : Twin lib n l t t') {r : Request lib} (hr : r ≠ .reset)
    (hn : r.Automatic → n ≤ l) : InStep (Twins lib n l) (t.perform r) (t'.perform r) := by
  have hself := h
  cases r with
  | reset => exact absurd rfl hr
  | register key => exact answered (abreast_liftM (h.register key)) _
  | setActive active => exact abreast_pure ⟨rfl, h.setActive active⟩
  | store target arguments => exact answered (h.store target arguments) _
  | release identifier => exact done (abreast_liftM (h.release identifier))
  | registerInput => exact answered h.registerInput _
  | registerOutput identifier => exact answered (h.registerOutput identifier) _
  | pushBlock token fixedSize dynamicSize write =>
    exact answered (h.pushBlock token fixedSize dynamicSize write) _
  | resetTo p => exact done (h.resetTo p)
  | append source known start stop =>
    apply (h.appendTo (.refl known) start stop).bind
    rintro _ _ (⟨hu⟩ | @⟨_, _, rfl⟩)
    · exact abreast_pure ⟨rfl, hu⟩
    · exact abreast_pure ⟨rfl, hself⟩
  | erase start stop =>
    apply (h.erase start stop).bind
    rintro ⟨result, u⟩ ⟨_, u'⟩ ⟨rfl, hu⟩
    rcases result with refusal | ⟨⟩
    · exact abreast_pure ⟨rfl, hu⟩
    · exact abreast_pure ⟨rfl, hu⟩
  | eraseWith scratch known start stop =>
    -- The scratch tape is one and the same in both sessions, so it comes back the same.
    apply (h.eraseWith (.refl known) start stop).bind
    rintro ⟨result, u, scratch⟩ ⟨_, u', scratch'⟩ ⟨rfl, hu, hscratch⟩
    have hsame : scratch' = scratch := hscratch.eq_self
    subst hsame
    exact abreast_pure ⟨rfl, hu⟩
  | lend other known start stop =>
    apply ((Twin.refl known).eraseWith h start stop).bind
    rintro ⟨result, other, u⟩ ⟨_, other', u'⟩ ⟨rfl, hother, hu⟩
    have hsame : other' = other := hother.eq_self
    subst hsame
    exact abreast_pure ⟨rfl, hu⟩
  | evaluate d start stop management => exact done (h.evaluate hn d start stop)
  | evaluateAll d => exact done (h.evaluateAll (hn trivial) d)
  | evaluateWith d start stop v => exact h.told (h.evaluateWith d start stop v) _
  | clearBetween start stop management => exact done (abreast_liftM (h.clearBetween hn start stop))
  | clearAll =>
    obtain ⟨hwithin, rfl, hle⟩ := h
    exact abreast_pure ⟨rfl, hwithin, rfl, hle⟩
  | gradient identifier => exact h.told (h.gradient identifier) _
  | getGradient identifier checking =>
    apply (h.getGradient identifier checking).bind
    rintro (refusal | x) _ rfl
    · exact abreast_pure ⟨rfl, h⟩
    · exact abreast_pure ⟨rfl, h⟩
  | modifyGradient identifier checking f =>
    apply (abreast_liftM (h.modifyGradient identifier checking f)).bind
    rintro _ _ (@⟨⟨x, u⟩, ⟨_, u'⟩, ⟨rfl, hu⟩⟩ | @⟨_, _, rfl⟩)
    · exact abreast_pure ⟨rfl, hu⟩
    · exact abreast_pure ⟨rfl, h⟩
  | seed identifier x => exact done (abreast_liftM (h.seed identifier x))
  | resize m =>
    have hv := h.withVector (t.adjoints.resizeTo m)
    obtain ⟨-, rfl, -⟩ := h
    exact done (abreast_liftM hv)
  | ensure i =>
    have hv := h.withVector (t.adjoints.reach i)
    obtain ⟨-, rfl, -⟩ := h
    exact done (abreast_liftM hv)
  | vector =>
    obtain ⟨-, rfl, -⟩ := h
    exact abreast_pure ⟨rfl, hself⟩
  | position =>
    obtain ⟨-, rfl, -⟩ := h
    exact abreast_pure ⟨rfl, hself⟩
  | contains p =>
    obtain ⟨-, rfl, -⟩ := h
    exact abreast_pure ⟨rfl, hself⟩
  | census =>
    obtain ⟨-, rfl, -⟩ := h
    exact abreast_pure ⟨rfl, hself⟩

/-- One request. A full reset leaves twins that have nothing to tell them apart. -/
theorem perform (h : Twin lib n l t t') {r : Request lib} (hn : r.Automatic → n ≤ l) :
    InStep (fun a b => a.1 = b.1 ∧ ∃ m k, Twin lib m k a.2 b.2 ∧ (n ≤ l → m ≤ k)) (t.perform r)
      (t'.perform r) := by
  by_cases hr : r = .reset
  · rw [hr]
    exact h.reset.bind fun u u' hu => abreast_pure ⟨rfl, 0, 0, hu, fun _ => Nat.le_refl 0⟩
  · exact (h.perform_of_ne_reset hr hn).mono (fun _ _ => id) fun a b hab => ⟨hab.1, n, l, hab.2, id⟩

/-- A session with one of two twins runs in step with the same session with the other. -/
theorem serve (h : Twin lib n l t t') {rs : List (Request lib)}
    (hn : n ≤ l ∨ ∀ r ∈ rs, ¬r.Automatic) : InStep Eq (t.serve rs) (t'.serve rs) := by
  induction rs generalizing n l t t' with
  | nil => exact abreast_pure rfl
  | cons r rs ih =>
    -- A full reset changes what the twins differ by, so the induction is over every `n` and `l`.
    have hfirst : r.Automatic → n ≤ l := by
      intro hr
      rcases hn with hn | hn
      · exact hn
      · exact absurd hr (hn r (List.mem_cons_self ..))
    apply (h.perform hfirst).bind
    rintro ⟨a, u⟩ ⟨_, u'⟩ ⟨rfl, m, k, hu, hmk⟩
    have hrest : m ≤ k ∨ ∀ r ∈ rs, ¬r.Automatic := by
      rcases hn with hn | hn
      · exact Or.inl (hmk hn)
      · exact Or.inr fun r hr => hn r (List.mem_cons_of_mem _ hr)
    exact (ih hu hrest).bind fun as _ has => abreast_pure (has ▸ rfl)

end Sessions

end Twin

end Tape

end Autodiff
