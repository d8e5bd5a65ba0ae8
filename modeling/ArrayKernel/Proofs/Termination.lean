import Mathlib.Logic.Function.Iterate
import Mathlib.Logic.ExistsUnique
import ArrayKernel.Proofs.Lowering.Traversal

/-!
# Lowering ends

`expand` is one call by the program's own rules: three checks, then the body, which may call
anything. The rules have one solution in total functions, and no kernel depends on calls past some
bound (`lowering_terminates`): calls in a body are made with one more function on the stack than the
call itself (`Lockstep`).
-/

namespace ArrayKernel.Lowering

open IR Surface

/-- The state that a step ends in, whether or not it fails. -/
def after {α : Type} (m : Lower α) (b : Builder) : Builder :=
  match m b with
  | .ok _ b' => b'
  | .error _ b' => b'

/-- After the step, the stacks are as before, whether or not it fails. -/
def Restores {α : Type} (m : Lower α) : Prop := ∀ b, SameStacks b (after m b)

theorem Lockstep.restores {α : Type} {σ : Site} {hand : List StmtId} {m m' : Lower α}
    {Q : α → List Effect → List StmtId → Prop} (hm : Lockstep σ hand m m' Q) {b : Builder}
    (hb : σ.Fits b) : SameStacks b (after m b) := by
  have hrun := (hm b hb).2
  unfold after
  generalize m b = r at hrun ⊢
  cases hrun with
  | ok _ kept | error kept => exact kept

theorem Does.congr {α : Type} {σ : Site} {P : Prop} {V : α → Prop} {m m' n n' : Lower α}
    (hm : Does σ m m' P V) (h : ∀ b, σ.Fits b → n b = m b ∧ n' b = m' b) : Does σ n n' P V := by
  refine ⟨fun hand b hb => ?_⟩
  rw [(h b hb).1, (h b hb).2]
  exact hm.takes hand b hb

/-! ## 1. Calls -/

/-- One call by the rules of the program: no more than so many expansions nest. -/
def expand (settings : CompilerSettings) (globals : Scope)
    (within : Lower Lowered → Lower Lowered) : Inliner → Inliner :=
  callWith settings globals (fun stack => settings.maxInlineDepth ≤ stack.length) within

variable {settings : CompilerSettings} {globals : Scope} {stack : List (Origin × Span)}
  {I J : Inliner}

/-- A solution of the rules: the calls in a body are made by the rules as well. -/
def Recursive (settings : CompilerSettings) (globals : Scope) (I : Inliner) : Prop :=
  I = expand settings globals id I

/-- Two solutions agree on every stack, by induction on how many expansions may still nest. -/
theorem Recursive.expands (hI : Recursive settings globals I) (hJ : Recursive settings globals J)
    {room : Nat} (hroom : settings.maxInlineDepth ≤ stack.length + room) :
    Expands (fun _ => True) stack I J := by
  induction room generalizing stack with
  | zero =>
    rw [hI, hJ]
    refine expands_callWith callClosed_all (fun _ _ _ _ => trivial) rfl fun f _ hlt => absurd hroom ?_
    exact of_decide_eq_false hlt
  | succ room ih =>
    rw [hI, hJ]
    refine expands_callWith callClosed_all (fun _ _ _ _ => trivial) rfl fun f _ _ => ⟨ih ?_, fun _ _ _ _ _ => id⟩
    rw [List.length_cons]
    omega

theorem Recursive.unique (hI : Recursive settings globals I) (hJ : Recursive settings globals J) :
    I = J := by
  funext f args receiver caller span b
  have hcalls := (hI.expands hJ (Nat.le_add_left ..)).does
    (σ := { stack := b.inlining, loop := b.loops.head? }) rfl f args receiver caller span
  exact (hcalls.takes [] b ⟨rfl, rfl⟩).1

/-! ## 2. The solution -/

def inlinerInRoom (settings : CompilerSettings) (globals : Scope) : Inliner :=
  fun f args receiver caller span b =>
  inliner settings globals (settings.maxInlineDepth - b.inlining.length) f args receiver caller span b

theorem expands_inRoom {depth : Nat} (h : depth = settings.maxInlineDepth - stack.length) :
    Expands (fun _ => True) stack (inliner settings globals depth) (inlinerInRoom settings globals) := by
  have hsame : Expands (fun _ => True) stack (inliner settings globals depth) (inliner settings globals depth) :=
    expands_inliner callClosed_all (fun _ _ _ _ => trivial) depth
  refine ⟨callClosed_all, ?_⟩
  rintro σ P f args receiver scope span rfl hheld hf hargs hreceiver hscope
  refine (hsame.calls σ P f args receiver scope span rfl hheld hf hargs hreceiver hscope).congr fun b hb => ⟨rfl, ?_⟩
  rw [inlinerInRoom, hb.2, ← h]

theorem recursive_inRoom : Recursive settings globals (inlinerInRoom settings globals) := by
  funext f args receiver caller span b
  have hfull : decide (settings.maxInlineDepth - b.inlining.length = 0) =
      decide (settings.maxInlineDepth ≤ b.inlining.length) := by
    simp only [Nat.sub_eq_zero_iff_le]
  rw [inlinerInRoom, inliner_eq]
  refine (((expands_callWith callClosed_all (fun _ _ _ _ => trivial) hfull fun g _ hroom => ⟨expands_inRoom ?_, fun _ _ _ _ _ => id⟩).does
    (σ := { stack := b.inlining, loop := b.loops.head? }) rfl f args receiver caller span).takes [] b ⟨rfl, rfl⟩).1
  dsimp only [List.length_cons]
  omega

/-! ## 3. Kernels -/

/-- The stack holds no function twice and no more than so many. -/
def StackOk (settings : CompilerSettings) (stack : List (Origin × Span)) : Prop :=
  stack.Nodup ∧ stack.length ≤ settings.maxInlineDepth

instance (settings : CompilerSettings) (stack : List (Origin × Span)) :
    Decidable (StackOk settings stack) :=
  inferInstanceAs (Decidable (_ ∧ _))

/-- A step where the stack is as it should be, and another one where it is not. -/
def guarded (settings : CompilerSettings) (otherwise m : Lower Lowered) : Lower Lowered := fun b =>
  if StackOk settings b.inlining then m b else otherwise b

/-- What is asked past the bound or on another stack is never asked: calls that are nested once more
have one function more on the stack. -/
theorem expands_iterate (hJ : Recursive settings globals J) (otherwise : Lower Lowered)
    (stuck : Inliner) (n : Nat) (hok : StackOk settings stack)
    (hn : settings.maxInlineDepth < stack.length + n) :
    Expands (fun _ => True) stack ((expand settings globals (guarded settings otherwise))^[n] stuck) J := by
  induction n generalizing stack with
  | zero => exact absurd hok.2 (by omega)
  | succ n ih =>
    rw [Function.iterate_succ_apply', hJ]
    refine expands_callWith callClosed_all (fun _ _ _ _ => trivial) rfl fun f hnew hroom => ?_
    have hroom := Nat.not_le.1 (of_decide_eq_false hroom)
    have hinner : StackOk settings (f.identity :: stack) := ⟨List.nodup_cons.2 ⟨hnew, hok.1⟩, hroom⟩
    refine ⟨ih hinner ?_, fun σ P m m' hσ hm => hm.congr fun b hb => ⟨if_pos ?_, rfl⟩⟩
    · rw [List.length_cons]
      omega
    · rwa [hb.2, hσ]

theorem Around.exists_fits (kind : Option LoopKind) : ∃ A : Around, A.Fits kind := by
  by_cases h : kind = some .parallel
  · exact ⟨_, h ▸ Around.fits_loop (.empty CompileError.nowhere) 0 true⟩
  · exact ⟨_, fun _ => (Around.fits_loop (.empty CompileError.nowhere) 0 false).1 rfl, fun hp => absurd hp h⟩

/-- Lowering is total, and only its own checks end it. -/
theorem lowering_terminates (settings : CompilerSettings) (scope : Scope) :
    ∃ I : Inliner,
      -- The recursive rules have one solution, and kernels are lowered with it.
      (∀ J, J = expand settings scope.globals id J ↔ J = I) ∧
      (∀ r templates, (kernelVia I r scope templates settings).run {} = (kernelOf r scope templates settings).run {}) ∧
      -- No kernel comes to a call that nests deeper than allowed, nor to a body on a stack with a
      -- function twice or with too many functions: it does not matter what would happen there.
      (∀ (otherwise : Lower Lowered) (stuck : Inliner) (more : Nat) (r : Routine)
        (templates : List (String × Value)), (kernelVia
          ((expand settings scope.globals (guarded settings otherwise))^[settings.maxInlineDepth + 1 + more] stuck)
          r scope templates settings).run {} = (kernelOf r scope templates settings).run {}) ∧
      -- Whether or not they fail, statements, expressions and calls leave the stacks as they were.
      ∀ (depth : Nat) (origin : Origin) (inner : Scope),
        (∀ s, Restores (lowerStmt ⟨settings, origin, inliner settings scope.globals depth⟩ inner s)) ∧
        (∀ e, Restores (lowerExpr ⟨settings, origin, inliner settings scope.globals depth⟩ inner e)) ∧
        ∀ f args receiver span, Restores (inliner settings scope.globals depth f args receiver inner span) := by
  have hI : Recursive settings scope.globals (inlinerInRoom settings scope.globals) := recursive_inRoom
  have hkernel {I : Inliner}
      (h : Expands (fun _ => True) [] I (inlinerInRoom settings scope.globals)) (r : Routine)
      (templates : List (String × Value)) : (kernelVia I r scope templates settings).run {} =
        (kernelVia (inlinerInRoom settings scope.globals) r scope templates settings).run {} :=
    ((ends_kernelVia (fun _ => trivial) ⟨fun _ _ _ _ => trivial, fun _ _ _ _ => trivial⟩
      (fun _ _ _ _ => trivial) (fun _ _ _ => trivial) h : Lockstep _ [] _ _ _) {} ⟨rfl, rfl⟩).1
  refine ⟨inlinerInRoom settings scope.globals, fun J => ⟨fun hJ => Recursive.unique hJ hI, ?_⟩, ?_, ?_, ?_⟩
  · rintro rfl
    exact hI
  · intro r templates
    exact (hkernel (expands_inRoom rfl) r templates).symm
  · intro otherwise stuck more r templates
    have hstart : StackOk settings [] := ⟨List.nodup_nil, Nat.zero_le _⟩
    rw [hkernel (expands_iterate hI otherwise stuck _ hstart (by simp only [List.length_nil]; omega)) r templates]
    exact (hkernel (expands_inRoom rfl) r templates).symm
  · intro depth origin inner
    have hexpands {stack : List (Origin × Span)} : Expands (fun _ => True) stack (inliner settings scope.globals depth)
        (inliner settings scope.globals depth) := expands_inliner callClosed_all (fun _ _ _ _ => trivial) depth
    refine ⟨fun s b => ?_, fun e b => ?_, fun f args receiver span b => ?_⟩
    · obtain ⟨A, hA⟩ := Around.exists_fits b.loops.head?
      exact ((does_lowerStmt (σ := { stack := b.inlining, loop := b.loops.head?, around := A, part := .stmt s })
        ⟨rfl, hexpands, False.elim⟩ hA s rfl False.elim).takes []).restores ⟨rfl, rfl⟩
    · exact ((does_lowerExpr (σ := { stack := b.inlining, loop := b.loops.head? })
        ⟨rfl, hexpands, False.elim⟩ e False.elim).takes []).restores ⟨rfl, rfl⟩
    · exact ((hexpands.does (σ := { stack := b.inlining, loop := b.loops.head? }) rfl f args receiver inner span).takes
        []).restores ⟨rfl, rfl⟩

end ArrayKernel.Lowering
