import ArrayKernel.Proofs.Session.Growth
import ArrayKernel.Proofs.Session.Pipelines

/-!
# Modules of a session

Whatever a session does, its settings stay as they are, and the modules in its cache tell what their
texts do. So a kernel whose shaders are read back can be made at any time.
-/

namespace ArrayKernel

open Shader Shows

/-- The settings are the same, and modules of the cache still tell what their texts do. -/
structure KeepsReading (s s' : Session) : Prop where
  settings : s'.settings = s.settings
  reads : CacheReads s → CacheReads s'

theorem Shows.SameAssets.keepsReading {s s' : Session} (h : SameAssets s s') :
    KeepsReading s s' := by
  refine ⟨h.settings, fun hreads code id hid => ?_⟩
  rw [h.modules]
  exact hreads code id (h.cache ▸ hid)

theorem Shows.Prepared.keepsReading {s s' : Session} (h : Prepared s s') : KeepsReading s s' := by
  obtain ⟨cache, device, kernels, rfl, -⟩ := h.1
  exact ⟨rfl, h.2⟩

theorem keepsReading_step {s : Session} {op : SessionOp} : KeepsReading s (s.step op).2 := by
  have hquiet : ∀ {α : Type} {x : SessionM α}, Quiet x → ∀ g : α → Answer,
    KeepsReading s (endOf ((g <$> x) s)) := fun hx g =>
    ((Leads.map hx g) s).keepsReading
  rw [step_snd]
  cases op with
  | field name shape elem =>
    refine Leads.map (fun s => ?_) _ s
    rw [Books.createField_eq rfl]
    split
    · exact ⟨rfl, id⟩
    · split <;> exact ⟨rfl, id⟩
  | texture name dims format storage =>
    refine Leads.map (fun s => ?_) _ s
    rw [createTexture_eq rfl]
    split <;> exact ⟨rfl, id⟩
  | write f words => exact hquiet (local_writeField f words).quiet _
  | fill f value => exact hquiet (local_fillField f value).quiet _
  | read f => exact hquiet ((local_readField f 4).bind fun _ => local_pure _).quiet _
  | kernel source scope templates => exact (Leads.map (prepared_kernel source scope templates) _ s).keepsReading
  | launch k args => exact hquiet ((launching_launch k args).imp fun _ _ => Launching.assets) _
  | wait id => exact hquiet (quiet_wait id) _
  | discard id => exact hquiet (quiet_discard id) _
  | tick now => exact ⟨rfl, id⟩

end ArrayKernel
