import ArrayKernel.Proofs.Scope.Notation
import ArrayKernel.Proofs.Session.Modules

/-!
# Instances of a template

A session finds the kernel of some template values by a hash of how they are written. As long as
the hash keeps these texts apart, a request is answered with the kernel of its own values.
-/

namespace ArrayKernel

open Lowering Shader Shows List Session

/-! ## 1. Template values and their text -/

def templateValues (entries : List (String × Value)) : List (String × Value) :=
  (Scope.ofEntries entries).table

def AreData (entries : List (String × Value)) : Prop := ∀ e ∈ entries, e.2.IsData

/-- The text that the key of template values is a hash of. -/
def templateText (entries : List (String × Value)) : String :=
  Notation.ofBindings (templateValues entries)

variable {es es' : List (String × Value)}

theorem AreData.templateValues (h : AreData es) : ∀ e ∈ templateValues es, e.2.IsData :=
  fun e he => h e (Scope.mem_ofEntries he)

theorem templateValues_eq_of_text (h : AreData es) (h' : AreData es')
    (heq : templateText es = templateText es') : templateValues es = templateValues es' :=
  Notation.ofBindings_injective h.templateValues h'.templateValues heq

theorem templateText_eq_iff (h : AreData es) (h' : AreData es') :
    templateText es = templateText es' ↔ ∀ name, es.reverse.lookup name = es'.reverse.lookup name := by
  constructor
  · intro heq name
    have htable : (Scope.ofEntries es).table = (Scope.ofEntries es').table := templateValues_eq_of_text h h' heq
    rw [← Scope.get?_ofEntries, ← Scope.get?_ofEntries, Scope.get?, Scope.get?, htable]
  · intro hlookup
    have htable := Scope.table_eq_of_get? (Scope.ascending_ofEntries es) (Scope.ascending_ofEntries es') fun name => by
      rw [Scope.get?_ofEntries, Scope.get?_ofEntries, hlookup]
    exact congrArg Notation.ofBindings htable

/-! ## 2. Sessions with a template -/

/-- A session, and a template of it. -/
structure Workbench where
  session : Session
  template : KernelTemplate

/-- What is done with them: an operation of the session, or a request for an instance of the
template. -/
inductive TemplateOp where
  | other (op : SessionOp)
  | instantiate (entries : List (String × Value))

namespace Workbench

/-- The answer to a request for the instance of some template values. -/
def ask (w : Workbench) (entries : List (String × Value)) :
    Except DeviceError SessionKernel × Workbench :=
  match instantiate w.template (templateValues entries) w.session with
  | .ok (k, template) session => (.ok k, { session, template })
  | .error e session => (.error e, { w with session })

def step (w : Workbench) : TemplateOp → Workbench
  | .other op => { w with session := (w.session.step op).2 }
  | .instantiate entries => (w.ask entries).2

def run (w : Workbench) (ops : List TemplateOp) : Workbench := ops.foldl step w

end Workbench

def requests (ops : List TemplateOp) : List (List (String × Value)) :=
  ops.filterMap fun
    | .instantiate entries => some entries
    | .other _ => none

variable {w : Workbench} {source : String} {scope : Scope} {settings : Settings}
  {asked : List (List (String × Value))} {k : SessionKernel}

/-- The three ways in which a request can go: the instance is there, or it is made, or making it
fails. -/
theorem ask_cases {entries : List (String × Value)} :
    (∃ k, w.template.instances.lookup (templateKey (templateValues entries)) = some k ∧ w.ask entries = (.ok k, w))
    ∨ w.template.instances.lookup (templateKey (templateValues entries)) = none
      ∧ ((∃ k s, kernel w.template.source w.template.scope (templateValues entries) w.session = .ok k s
          ∧ w.ask entries = (.ok k, ⟨s, { w.template with
              instances := (templateKey (templateValues entries), k) :: w.template.instances }⟩))
        ∨ ∃ e s, kernel w.template.source w.template.scope (templateValues entries) w.session = .error e s
          ∧ w.ask entries = (.error e, { w with session := s })) := by
  unfold Workbench.ask
  cases hl : w.template.instances.lookup (templateKey (templateValues entries)) with
  | some k =>
    have hrun : instantiate w.template (templateValues entries) w.session = .ok (k, w.template) w.session := by
      unfold instantiate
      simp only [hl]
      rfl
    rw [hrun]
    exact .inl ⟨k, rfl, rfl⟩
  | none =>
    have hrun : instantiate w.template (templateValues entries) w.session = (do
        let k ← kernel w.template.source w.template.scope (templateValues entries)
        return (k, { w.template with instances := (templateKey (templateValues entries), k) :: w.template.instances }) :
          SessionM (SessionKernel × KernelTemplate)) w.session := by
      unfold instantiate
      simp only [hl]
    rw [hrun]
    refine .inr ⟨rfl, ?_⟩
    cases hk : kernel w.template.source w.template.scope (templateValues entries) w.session with
    | ok k s =>
      rw [run_bind hk]
      exact .inl ⟨k, s, rfl, rfl⟩
    | error e s =>
      rw [run_bind_error hk]
      exact .inr ⟨e, s, rfl, rfl⟩

/-! ## 3. Along operations -/

structure Faithful (source : String) (scope : Scope) (settings : Settings)
    (asked : List (List (String × Value))) (w : Workbench) : Prop where
  sameSource : w.template.source = source
  sameScope : w.template.scope = scope
  sameSettings : w.session.settings = settings
  reads : CacheReads w.session
  instances : ∀ key k, w.template.instances.lookup key = some k → ∃ es ∈ asked, key = templateKey (templateValues es)
    ∧ compile source scope (templateValues es) settings.compiler = .ok k.compiled

namespace Faithful

theorem more (h : Faithful source scope settings asked w) {asked' : List (List (String × Value))}
    (hsub : asked ⊆ asked') : Faithful source scope settings asked' w where
  sameSource := h.sameSource
  sameScope := h.sameScope
  sameSettings := h.sameSettings
  reads := h.reads
  instances key k hk := by
    obtain ⟨es, hes, hkey, hc⟩ := h.instances key k hk
    exact ⟨es, hsub hes, hkey, hc⟩

theorem session (h : Faithful source scope settings asked w) {s : Session}
    (hs : KeepsReading w.session s) :
    Faithful source scope settings asked { w with session := s } where
  sameSource := h.sameSource
  sameScope := h.sameScope
  sameSettings := hs.settings.trans h.sameSettings
  reads := hs.reads h.reads
  instances := h.instances

theorem ask (h : Faithful source scope settings asked w) (es : List (String × Value)) :
    Faithful source scope settings (es :: asked) (w.ask es).2 := by
  have hreading := (prepared_kernel w.template.source w.template.scope (templateValues es) w.session).keepsReading
  rcases ask_cases with ⟨k, -, heq⟩ | ⟨-, ⟨k, s, hk, heq⟩ | ⟨e, s, hk, heq⟩⟩
  · rw [heq]
    exact h.more (subset_cons_self _ _)
  · have hcompile := compile_of_kernel hk
    rw [h.sameSource, h.sameScope, h.sameSettings] at hcompile
    rw [hk] at hreading
    rw [heq]
    refine ⟨h.sameSource, h.sameScope, hreading.settings.trans h.sameSettings,
      hreading.reads h.reads, fun key k' hk' => ?_⟩
    rw [lookup_cons] at hk'
    split at hk'
    · rename_i hkey
      cases hk'
      exact ⟨es, mem_cons_self .., beq_iff_eq.1 hkey, hcompile⟩
    · exact (h.more (subset_cons_self _ _)).instances key k' hk'
  · rw [hk] at hreading
    rw [heq]
    exact (h.more (subset_cons_self _ _)).session hreading

theorem run (h : Faithful source scope settings asked w) (ops : List TemplateOp) :
    Faithful source scope settings (requests ops ++ asked) (w.run ops) := by
  induction ops generalizing w asked with
  | nil => exact h
  | cons op ops ih =>
    cases op with
    | other op => exact ih (h.session keepsReading_step)
    | instantiate es => exact (ih (h.ask es)).more (by simp [requests])

theorem start (source : String) (scope : Scope) (settings : Settings) (clock : Nat) :
    Faithful source scope settings [] { session := { settings, clock }, template := { source, scope } } where
  sameSource := rfl
  sameScope := rfl
  sameSettings := rfl
  reads := nofun
  instances := nofun

end Faithful

/-! ## 4. Answers -/

/-- The answer is that of a compiler which is given these template values and no others. -/
structure AnswersFor (source : String) (scope : Scope) (settings : Settings)
    (entries : List (String × Value)) (answer : Except DeviceError SessionKernel) : Prop where
  only : ∀ k, answer = .ok k → compile source scope (templateValues entries) settings.compiler = .ok k.compiled
  refused : ∀ e, compile source scope (templateValues entries) settings.compiler = .error e → answer
    = .error (.compile e)
  given : ∀ c, compile source scope (templateValues entries) settings.compiler = .ok c →
    ∀ fields textures, HostGives (Bindable fields textures) scope (templateValues entries) →
      FewResources fields textures →
      settings.compiler.workgroupSize < 2 ^ 32 → ∃ k, answer = .ok k ∧ k.compiled = c

theorem AnswersFor.of_compile
    (hc : compile source scope (templateValues es) settings.compiler = .ok k.compiled) :
    AnswersFor source scope settings es (.ok k) where
  only := by
    rintro _ ⟨⟩
    exact hc
  refused e he := by
    rw [hc] at he
    cases he
  given c hc' _ _ _ _ _ := by
    rw [hc] at hc'
    exact ⟨k, rfl, Except.ok.inj hc'⟩

/-- The hash of no two texts is the same. -/
def NoCollision (texts : List String) : Prop :=
  ∀ a ∈ texts, ∀ b ∈ texts, Digest.Blake3.fingerprint a = Digest.Blake3.fingerprint b → a = b

/-- An instance that is there for a key has been compiled from the values that the key is asked for
with. -/
theorem Faithful.found (h : Faithful source scope settings asked w)
    (hdata : ∀ xs ∈ es :: asked, AreData xs)
    (hdigest : NoCollision ((es :: asked).map templateText))
    (hk : w.template.instances.lookup (templateKey (templateValues es)) = some k) :
    compile source scope (templateValues es) settings.compiler = .ok k.compiled := by
  obtain ⟨es', hes', hkey, hc⟩ := h.instances _ k hk
  have hmem : es' ∈ es :: asked := mem_cons_of_mem _ hes'
  have htext : templateText es = templateText es' :=
    hdigest _ (mem_map_of_mem (mem_cons_self ..)) _ (mem_map_of_mem hmem) hkey
  rw [templateValues_eq_of_text (hdata es (mem_cons_self ..)) (hdata es' hmem) htext]
  exact hc

theorem Faithful.answers (h : Faithful source scope settings asked w)
    (hdata : ∀ xs ∈ es :: asked, AreData xs)
    (hdigest : NoCollision ((es :: asked).map templateText)) :
    AnswersFor source scope settings es (w.ask es).1 := by
  rcases ask_cases with ⟨k, hk, heq⟩ | ⟨-, ⟨k, s, hk, heq⟩ | ⟨e, s, hk, heq⟩⟩
  · rw [heq]
    exact .of_compile (h.found hdata hdigest hk)
  · have hc := compile_of_kernel hk
    rw [h.sameSource, h.sameScope, h.sameSettings] at hc
    rw [heq]
    exact .of_compile hc
  · rw [h.sameSource, h.sameScope] at hk
    rw [heq]
    refine ⟨nofun, ?_, ?_⟩
    · intro e' he'
      rw [kernel_error (by rw [h.sameSettings]; exact he')] at hk
      cases hk
      rfl
    · intro c hc fields textures hg hfew hsize
      obtain ⟨k, s', hrun, -⟩ := kernel_runs h.reads (by rw [h.sameSettings]; exact hc)
        (readBack_compile hg hfew hsize hc)
      rw [hk] at hrun
      cases hrun

/-- Two maps of template values have one text just if they give every name the same value. After
any operations of a session, a request for an instance of a template is answered with the kernel of
just the values that it names, provided that no two texts of requests have the same hash. -/
theorem instances_never_confused (source : String) (scope : Scope) (settings : Settings)
    (clock : Nat) (ops : List TemplateOp) (es : List (String × Value))
    (hdata : ∀ xs ∈ es :: requests ops, AreData xs)
    (hdigest : NoCollision ((es :: requests ops).map templateText)) :
    AnswersFor source scope settings es
      ((Workbench.run { session := { settings, clock }, template := { source, scope } } ops).ask es).1
    ∧ ∀ xs ys, AreData xs → AreData ys →
      (templateText xs = templateText ys ↔ ∀ name, xs.reverse.lookup name = ys.reverse.lookup name) := by
  refine ⟨?_, fun xs ys => templateText_eq_iff⟩
  have h := (Faithful.start source scope settings clock).run ops
  rw [List.append_nil] at h
  exact h.answers hdata hdigest

/-! ## 5. One number in two types -/

def rampSource : String :=
  "(n: template) => \x7b for (const i of range(4)) \x7b out[i] = n.step * i \x7d \x7d"

def rampField : FieldInfo := { id := 0, name := "out", shape := [4], elem := .f32 }

def rampScope : Scope where
  table := [("out", .field rampField)]

def rampWhole : List (String × Value) := [("n", .record (.cons "step" (.number (.i32 1)) .nil))]

def rampFloat : List (String × Value) := [("n", .record (.cons "step" (.number (.f32 .one)) .nil))]

/-- The first entry is made up for by the second. -/
def rampEntries : List (String × Value) := rampWhole ++ rampFloat

def rampOps : List TemplateOp := [.instantiate rampWhole, .other (.tick 3), .instantiate rampFloat]

theorem rampEntries_bindable :
    HostGives (Bindable [rampField] []) rampScope (templateValues rampEntries) where
  table p hp := by
    simp only [rampScope, mem_singleton] at hp
    subst hp
    exact mem_singleton.2 rfl
  receiver := nofun
  templates p hp := by
    rw [show templateValues rampEntries = rampFloat from rfl, rampFloat, mem_singleton] at hp
    subst hp
    exact ⟨rfl, rfl, trivial⟩

theorem rampEntries_data : ∀ xs ∈ rampEntries :: requests rampOps, AreData xs := by
  have hone : Number.Binary32.one.isNaN = false := by decide
  simp only [rampEntries, rampOps, requests, rampWhole, rampFloat, filterMap_cons, cons_append,
    nil_append, forall_mem_cons, AreData, Value.IsData, Record.IsData, Literal.IsNumber, hone]
  simp

theorem noCollision_pair {a b : String}
    (h : Digest.Blake3.fingerprint a ≠ Digest.Blake3.fingerprint b) {texts : List String}
    (htexts : ∀ x ∈ texts, x = a ∨ x = b) : NoCollision texts := by
  intro x hx y hy hxy
  rcases htexts x hx with rfl | rfl
  · rcases htexts y hy with rfl | rfl
    · rfl
    · exact absurd hxy h
  · rcases htexts y hy with rfl | rfl
    · exact absurd hxy.symm h
    · rfl

theorem rampEntries_noCollision :
    NoCollision ((rampEntries :: requests rampOps).map templateText) := by
  have hdigest : Digest.Blake3.fingerprint (templateText rampFloat) ≠ Digest.Blake3.fingerprint
      (templateText rampWhole) := by
    decide +kernel
  exact noCollision_pair hdigest (by decide +kernel)

/-- The kernel of the float is given, after that of the integer has been made. -/
theorem instances_never_confused_ramp :
    ∃ k, ((Workbench.run { session := {}, template := { source := rampSource, scope := rampScope } } rampOps).ask rampEntries).1
        = .ok k
      ∧ compile rampSource rampScope rampFloat {} = .ok k.compiled ∧
        templateText rampWhole ≠ templateText rampEntries := by
  obtain ⟨answers, htexts⟩ :=
    instances_never_confused rampSource rampScope {} 0 rampOps rampEntries rampEntries_data rampEntries_noCollision
  have hfew : FewResources [rampField] [] := ⟨by decide, by decide, by decide⟩
  obtain ⟨r, ir, hr, hir⟩ : ∃ r k, Surface.Routine.parse kernelFile rampSource = .ok r
      ∧ lower r rampScope (templateValues rampEntries) {} = .ok k := by
    have hruns : (Surface.Routine.parse kernelFile rampSource).toOption.any (fun r =>
        (lower r rampScope (templateValues rampEntries) {}).toBool) = true := by decide +kernel
    cases hr : Surface.Routine.parse kernelFile rampSource with
    | error e =>
      rw [hr] at hruns
      cases hruns
    | ok r =>
      rw [hr] at hruns
      cases hk : lower r rampScope (templateValues rampEntries) {} with
      | ok k => exact ⟨r, k, rfl, hk⟩
      | error e =>
        simp [Except.toOption, hk, Except.toBool] at hruns
  obtain ⟨c, hc, -⟩ := exists_compile rampEntries_bindable hfew (by decide) hr hir
  obtain ⟨k, hk, rfl⟩ := answers.given c hc _ _ rampEntries_bindable hfew (by decide)
  refine ⟨k, hk, hc, fun heq => ?_⟩
  have hwhole : AreData rampWhole := rampEntries_data _ (by simp [rampOps, requests])
  have hentries : AreData rampEntries := rampEntries_data _ (List.mem_cons_self ..)
  have hlookup := (htexts rampWhole rampEntries hwhole hentries).1 heq "n"
  simp [rampWhole, rampFloat, rampEntries] at hlookup

end ArrayKernel
