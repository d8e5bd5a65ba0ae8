import Mathlib.Data.Option.Basic

/-!
# Control flow

Both the language and its representation are given a meaning by these few functions: related states
lead to related states (`Related`), and a run that has ended is not changed by more fuel.
-/

namespace ArrayKernel.Meaning

open Option

/-! ## 1. Runs -/

inductive Outcome where
  | normal
  | broke
  | continued
  deriving DecidableEq, Repr

/-- The state and the outcome of a run, unless it does not end or makes no sense. -/
abbrev Result (S : Type) := Option (S × Outcome)

variable {S T α β : Type} {s : S} {t : T}

def andThen (r : Result S) (next : S → Result S) : Result S :=
  r.bind fun (s, out) => if out = .normal then next s else some (s, out)

/-- A loop that runs while a test succeeds, for at most as many iterations as there is fuel. -/
def whileLoop (test : S → Option (S × Bool)) (body : S → Result S) : Nat → S → Option S
  | 0, s => (test s).bind fun (s₁, go) => if go then none else some s₁
  | fuel + 1, s =>
    (test s).bind fun (s₁, go) =>
      if go then
        (body s₁).bind fun (s₂, out) => if out = .broke then some s₂ else whileLoop test body fuel s₂
      else some s₁

def rangeLoop (step : Int32 → S → Result S) : Nat → Int32 → S → Option S
  | 0, _, s => some s
  | count + 1, i, s =>
    (step i s).bind fun (s₁, out) => if out = .broke then some s₁ else rangeLoop step count (i + 1) s₁

/-- The number of integers from a first one up to a last one, which does not count. -/
def rangeCount (first last : Int32) : Nat := (last.toInt - first.toInt).toNat

def ended (r : Option S) : Result S := r.map (·, .normal)

@[simp] theorem andThen_some (s : S) (out : Outcome) (next : S → Result S) :
    andThen (some (s, out)) next = if out = .normal then next s else some (s, out) := rfl

theorem andThen_assoc (r : Result S) (f g : S → Result S) :
    andThen (andThen r f) g = andThen r fun s => andThen (f s) g := by
  rcases r with _ | ⟨s, out⟩
  · rfl
  · by_cases h : out = .normal <;> simp [h]

theorem andThen_normal {r : Result S} : andThen r (fun s => some (s, .normal)) = r := by
  rcases r with _ | ⟨s, out⟩
  · rfl
  · by_cases h : out = .normal <;> simp [h]

/-! ## 2. Related runs -/

/-- Both runs end or neither does, and if they do then in the same way and in related states. -/
def Related (R : Outcome → S → T → Prop) : Result S → Result T → Prop :=
  Option.Rel fun p q => p.2 = q.2 ∧ R p.2 p.1 q.1

theorem rel_bind {α' β' : Type} {P : α → α' → Prop} {Q : β → β' → Prop} {r : Option α}
    {r' : Option α'} {f : α → Option β} {f' : α' → Option β'} (h : Option.Rel P r r')
    (hf : ∀ x y, P x y → Option.Rel Q (f x) (f' y)) : Option.Rel Q (r.bind f) (r'.bind f') := by
  cases h with
  | none => exact .none
  | some h => exact hf _ _ h

namespace Related

variable {R R' : Outcome → S → T → Prop} {I : S → T → Prop} {r : Result S} {r' : Result T}

theorem done {out : Outcome} (h : R out s t) : Related R (some (s, out)) (some (t, out)) :=
  .some ⟨rfl, h⟩

theorem imp (h : Related R r r') (hR : ∀ out s t, R out s t → R' out s t) : Related R' r r' := by
  cases h with
  | none => exact .none
  | some h => exact .some ⟨h.1, hR _ _ _ h.2⟩

theorem andThen {f : S → Result S} {f' : T → Result T} (h : Related R r r')
    (hf : ∀ s t, R .normal s t → Related R' (f s) (f' t))
    (hR : ∀ out s t, out ≠ .normal → R out s t → R' out s t) :
    Related R' (Meaning.andThen r f) (Meaning.andThen r' f') := by
  refine rel_bind h fun ⟨s, out⟩ ⟨t, out'⟩ hst => ?_
  obtain ⟨rfl, hst⟩ : out = out' ∧ R out s t := hst
  by_cases hout : out = .normal
  · subst hout
    exact hf s t hst
  · simp only [if_neg hout]
    exact done (hR out s t hout hst)

theorem ended {r : Option S} {r' : Option T} (h : Option.Rel I r r')
    (hR : ∀ s t, I s t → R .normal s t) : Related R (Meaning.ended r) (Meaning.ended r') := by
  cases h with
  | none => exact .none
  | some h => exact done (hR _ _ h)

theorem iterate {k : S → Option S} {k' : T → Option T} (h : Related (fun _ => I) r r')
    (hk : ∀ s t, I s t → Option.Rel I (k s) (k' t)) :
    Option.Rel I (r.bind fun (s, out) => if out = .broke then some s else k s)
      (r'.bind fun (t, out) => if out = .broke then some t else k' t) := by
  refine rel_bind h fun ⟨s, out⟩ ⟨t, out'⟩ hst => ?_
  obtain ⟨rfl, hst⟩ : out = out' ∧ I s t := hst
  by_cases hout : out = .broke
  · simpa [hout] using hst
  · simpa [hout] using hk s t hst

end Related

variable {I : S → T → Prop}

/-- Loops with related tests and bodies are related, whatever the fuel: `I` holds between
iterations. -/
theorem whileLoop_related {test : S → Option (S × Bool)} {test' : T → Option (T × Bool)}
    {body : S → Result S} {body' : T → Result T}
    (htest : ∀ s t, I s t → Option.Rel (fun p q => p.2 = q.2 ∧ I p.1 q.1) (test s) (test' t))
    (hbody : ∀ s t, I s t → Related (fun _ => I) (body s) (body' t)) {fuel : Nat} (hst : I s t) :
    Option.Rel I (whileLoop test body fuel s) (whileLoop test' body' fuel t) := by
  induction fuel generalizing s t with
  | zero =>
    unfold whileLoop
    refine rel_bind (htest s t hst) fun ⟨s1, go⟩ ⟨t1, go'⟩ h => ?_
    obtain ⟨rfl, h1⟩ : go = go' ∧ I s1 t1 := h
    cases go with
    | false => exact .some h1
    | true => exact .none
  | succ fuel ih =>
    refine rel_bind (htest s t hst) fun ⟨s1, go⟩ ⟨t1, go'⟩ h => ?_
    obtain ⟨rfl, h1⟩ : go = go' ∧ I s1 t1 := h
    cases go with
    | false => exact .some h1
    | true => exact (hbody s1 t1 h1).iterate fun _ _ h => ih h

theorem rangeLoop_related {step : Int32 → S → Result S} {step' : Int32 → T → Result T}
    (hstep : ∀ i s t, I s t → Related (fun _ => I) (step i s) (step' i t)) (count : Nat) (i : Int32)
    (hst : I s t) : Option.Rel I (rangeLoop step count i s) (rangeLoop step' count i t) := by
  induction count generalizing i s t with
  | zero => exact .some hst
  | succ count ih => exact Related.iterate (hstep i s t hst) fun _ _ h => ih (i + 1) h

/-! ## 3. More fuel -/

/-- The second run ends at least where the first one does, and in the same way. -/
def Extends {α : Type} (r r' : Option α) : Prop := ∀ x, r = some x → r' = some x

theorem Extends.bind {r r' : Option α} {f f' : α → Option β} (h : Extends r r')
    (hf : ∀ x, Extends (f x) (f' x)) : Extends (r.bind f) (r'.bind f') := by
  intro y hy
  obtain ⟨x, hx, hy⟩ := bind_eq_some_iff.1 hy
  exact bind_eq_some_iff.2 ⟨x, h x hx, hf x y hy⟩

theorem Extends.refl (r : Option α) : Extends r r := fun _ h => h

theorem Extends.ite {p : Prop} [Decidable p] {r1 r1' r2 r2' : Option α} (h1 : Extends r1 r1')
    (h2 : Extends r2 r2') : Extends (if p then r1 else r2) (if p then r1' else r2') := by
  split
  · exact h1
  · exact h2

theorem Extends.andThen {r r' : Result S} {f f' : S → Result S} (h : Extends r r')
    (hf : ∀ s, Extends (f s) (f' s)) : Extends (andThen r f) (andThen r' f') :=
  h.bind fun _ => .ite (hf _) (.refl _)

theorem Extends.ended {r r' : Option S} (h : Extends r r') : Extends (ended r) (ended r') := by
  intro x hx
  obtain ⟨s, hs, rfl⟩ := map_eq_some_iff.1 hx
  exact map_eq_some_iff.2 ⟨s, h s hs, rfl⟩

theorem Extends.whileLoop {test test' : S → Option (S × Bool)} {body body' : S → Result S}
    (htest : ∀ s, Extends (test s) (test' s)) (hbody : ∀ s, Extends (body s) (body' s))
    {fuel fuel' : Nat} (hfuel : fuel ≤ fuel') (s : S) :
    Extends (whileLoop test body fuel s) (whileLoop test' body' fuel' s) := by
  induction fuel generalizing fuel' s with
  | zero =>
    cases fuel' with
    | zero => exact (htest s).bind fun _ => .refl _
    | succ fuel' =>
      -- without fuel a loop ends only where its test fails
      exact (htest s).bind fun _ => .ite (fun _ h => nomatch h) (.refl _)
  | succ fuel ih =>
    obtain ⟨fuel', rfl⟩ : ∃ k, fuel' = k + 1 := ⟨fuel' - 1, by omega⟩
    refine (htest s).bind fun _ => .ite ?_ (.refl _)
    exact (hbody _).bind fun _ => .ite (.refl _) (ih (by omega) _)

theorem Extends.rangeLoop {step step' : Int32 → S → Result S}
    (hstep : ∀ i s, Extends (step i s) (step' i s)) (count : Nat) (i : Int32) (s : S) :
    Extends (rangeLoop step count i s) (rangeLoop step' count i s) := by
  induction count generalizing i s with
  | zero => exact .refl _
  | succ count ih => exact (hstep i s).bind fun _ => .ite (.refl _) (ih _ _)

end ArrayKernel.Meaning
