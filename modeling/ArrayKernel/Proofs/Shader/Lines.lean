import Mathlib.Data.List.Forall2
import ArrayKernel.Proofs.Shader.Reading
import ArrayKernel.Shader.Statement

/-!
# Blocks and declarations in lines of text

A brace at the end of a line opens a block and one at its start closes one; a line that starts with
a keyword declares a name. It can be used until its block is closed (`InScope`).
-/

namespace ArrayKernel.Shader

open Text List Option

variable {lines ls : List String} {l name text hint : String} {cs kw rest : List Char} {c : Char}
  {id : IR.StmtId} {depth : Nat}

/-! ## 1. Blocks -/

def unindented (l : String) : List Char := l.toList.dropWhile (· = ' ')

def opensBlock (l : String) : Bool := l.toList.getLast? = some '\x7b'

def closesBlock (l : String) : Bool := (unindented l).head? = some '\x7d'

/-- The number of open blocks after the lines, from a number before them. There is none if the
lines close more blocks than are open. -/
def depthFrom : Nat → List String → Option Nat
  | d, [] => some d
  | d, l :: ls =>
    if closesBlock l then
      if d = 0 then none else depthFrom (d - 1 + (opensBlock l).toNat) ls
    else depthFrom (d + (opensBlock l).toNat) ls

theorem depthFrom_append (d : Nat) (ls ms : List String) :
    depthFrom d (ls ++ ms) = (depthFrom d ls).bind fun d => depthFrom d ms := by
  induction ls generalizing d with
  | nil => rfl
  | cons l ls ih =>
    rw [cons_append, depthFrom, depthFrom]
    split
    · split
      · rfl
      · exact ih _
    · exact ih _

theorem depthFrom_add {d d' : Nat} (h : depthFrom d ls = some d') (n : Nat) :
    depthFrom (n + d) ls = some (n + d') := by
  induction ls generalizing d with
  | nil =>
    cases h
    rfl
  | cons l ls ih =>
    rw [depthFrom] at h ⊢
    split at h
    · split at h
      · cases h
      · rename_i hc hd
        rw [if_pos hc, if_neg (by omega), ← ih h]
        congr 1
        omega
    · rename_i hc
      rw [if_neg hc, ← ih h, add_assoc]

/-! ## 2. Declarations -/

def keywords : List (List Char) :=
  [['l', 'e', 't', ' '], ['v', 'a', 'r', ' '], ['f', 'o', 'r', ' ', '(', 'v', 'a', 'r', ' ']]

def isSeparator (c : Char) : Bool := c = ':' || c = ' '

def Declares (l name : String) : Prop :=
  ∃ kw ∈ keywords, ∃ c rest, unindented l = kw ++ (name.toList ++ c :: rest) ∧ isSeparator c

/-- A line declares the name, and the block in which it can be used is still open. -/
def InScope (lines : List String) (name : String) : Prop :=
  ∃ before l after, lines = before ++ l :: after ∧ Declares l name ∧ (depthFrom 0 after).isSome

theorem InScope.append (h : InScope lines name) (hls : (depthFrom 0 ls).isSome) :
    InScope (lines ++ ls) name := by
  obtain ⟨before, l, after, rfl, hl, hafter⟩ := h
  refine ⟨before, l, after ++ ls, by simp, hl, ?_⟩
  obtain ⟨d, hd⟩ := isSome_iff_exists.1 hafter
  obtain ⟨d', hd'⟩ := isSome_iff_exists.1 hls
  rw [depthFrom_append, hd, bind_some]
  have := depthFrom_add hd' d
  rw [add_zero] at this
  rw [this]
  rfl

theorem InScope.declared (h : Declares l name) (hls : (depthFrom 0 ls).isSome) :
    InScope (lines ++ l :: ls) name :=
  ⟨lines, l, ls, rfl, h, hls⟩

/-! ## 3. Names that are declared only once -/

/-- The part of a name before anything that could end it. -/
def wordOf (name : String) : List Char := name.toList.takeWhile (!isSeparator ·)

theorem takeWhile_append_separator (hc : isSeparator c) :
    (cs ++ c :: rest).takeWhile (!isSeparator ·) = cs.takeWhile (!isSeparator ·) := by
  induction cs with
  | nil => simp [hc]
  | cons d cs ih =>
    rw [cons_append, takeWhile_cons, takeWhile_cons, ih]

theorem keyword_eq {kw' cs' : List Char} (h : kw ∈ keywords) (h' : kw' ∈ keywords)
    (heq : kw ++ cs = kw' ++ cs') : kw = kw' := by
  have hheads : ∀ x ∈ keywords, ∀ y ∈ keywords, x.head? = y.head? → x = y := by decide
  have hsome : ∀ x ∈ keywords, x.head?.isSome := by decide
  apply hheads kw h kw' h'
  have := congrArg List.head? heq
  rwa [head?_append, head?_append, or_of_isSome (hsome kw h), or_of_isSome (hsome kw' h')] at this

/-- All names that one line could be said to declare begin with the same word. -/
theorem Declares.wordOf_eq {name' : String} (h : Declares l name) (h' : Declares l name') :
    wordOf name = wordOf name' := by
  obtain ⟨kw, hkw, c, rest, hl, hc⟩ := h
  obtain ⟨kw', hkw', c', rest', hl', hc'⟩ := h'
  have heq := hl.symm.trans hl'
  obtain rfl := keyword_eq hkw hkw' heq
  have hrest := append_cancel_left heq
  rw [wordOf, wordOf, ← takeWhile_append_separator hc, hrest, takeWhile_append_separator hc']

def DeclaredOnce (lines : List String) : Prop :=
  lines.Pairwise fun l l' => ∀ name, Declares l name → ¬ Declares l' name

/-- The words of all names that the lines declare meet the condition. -/
def DeclareOnly (W : List Char → Prop) (lines : List String) : Prop :=
  ∀ l ∈ lines, ∀ name, Declares l name → W (wordOf name)

theorem DeclaredOnce.append {W W' : List Char → Prop} {ms : List String} (hl : DeclaredOnce ls)
    (hm : DeclaredOnce ms) (hW : DeclareOnly W ls) (hW' : DeclareOnly W' ms)
    (hdisj : ∀ w, W w → ¬ W' w) : DeclaredOnce (ls ++ ms) := by
  refine pairwise_append.2 ⟨hl, hm, fun l hl l' hl' name h h' => ?_⟩
  exact hdisj _ (hW l hl name h) (hW' l' hl' name h')

/-! ## 4. Names of statements -/

/-- The word begins with the number of the statement. -/
def OfId (id : IR.StmtId) (w : List Char) : Prop :=
  ∃ tail, w = '_' :: (Nat.toDigits 10 id ++ tail) ∧ Stops Char.isDigit tail

theorem OfId.id_eq {i j : IR.StmtId} {w : List Char} (hi : OfId i w) (hj : OfId j w) : i = j := by
  obtain ⟨x, rfl, hx⟩ := hi
  obtain ⟨y, hw, hy⟩ := hj
  have h := congrArg (List.takeWhile Char.isDigit) (List.cons.inj hw).2
  rw [takeWhile_append_of_stops (isDigit_toDigits i) hx, takeWhile_append_of_stops (isDigit_toDigits j) hy] at h
  rw [← natOfDigits_toDigits i, h, natOfDigits_toDigits]

theorem not_separator_of_isDigit (h : c.isDigit) : isSeparator c = false := by
  cases hc : isSeparator c with
  | false => rfl
  | true =>
    simp only [isSeparator, Bool.or_eq_true, decide_eq_true_eq] at hc
    rcases hc with rfl | rfl <;> cases h

theorem toList_valueName (id : IR.StmtId) : (valueName id).toList = '_' :: Nat.toDigits 10 id := by
  show ("_" ++ toString id).toList = _
  rw [String.toList_append, toList_toString_nat]
  rfl

theorem toList_varName :
    ∃ tail, (varName id hint).toList = '_' :: (Nat.toDigits 10 id ++ tail) ∧ Stops Char.isDigit tail := by
  unfold varName
  split
  · exact ⟨[], by rw [toList_valueName, append_nil], rfl⟩
  · refine ⟨'_' :: hint.toList, ?_, rfl⟩
    show ("_" ++ toString id ++ "_" ++ hint).toList = _
    simp only [String.toList_append, toList_toString_nat, append_assoc]
    rfl

theorem takeWhile_toDigits (id : IR.StmtId) (tail : List Char) :
    (Nat.toDigits 10 id ++ tail).takeWhile (!isSeparator ·)
      = Nat.toDigits 10 id ++ tail.takeWhile (!isSeparator ·) := by
  have hdigits : ∀ c ∈ Nat.toDigits 10 id, (!isSeparator c) = true := fun c hc => by
    rw [not_separator_of_isDigit (isDigit_toDigits id c hc)]
    rfl
  rw [takeWhile_append_of_pos hdigits]

theorem ofId_wordOf {tail : List Char} (hname : name.toList = '_' :: (Nat.toDigits 10 id ++ tail))
    (ht : Stops Char.isDigit tail) : OfId id (wordOf name) := by
  refine ⟨tail.takeWhile (!isSeparator ·), ?_, ?_⟩
  · rw [wordOf, hname, takeWhile_cons, takeWhile_toDigits]
    rfl
  · cases tail with
    | nil => exact ht
    | cons c tail =>
      rw [takeWhile_cons]
      split
      · exact ht
      · rfl

theorem ofId_valueName : OfId id (wordOf (valueName id)) :=
  ofId_wordOf (by rw [toList_valueName, append_nil]) (stops_nil _)

theorem ofId_varName : OfId id (wordOf (varName id hint)) := by
  obtain ⟨tail, hname, ht⟩ := toList_varName
  exact ofId_wordOf hname ht

/-! ## 5. Shapes of lines -/

theorem unindented_indentation (h : Stops (· = ' ') text.toList) :
    unindented (indentation depth ++ text) = text.toList := by
  have hspaces : ∀ c ∈ List.replicate (4 * depth) ' ', decide (c = ' ') = true := fun c hc =>
    decide_eq_true (mem_replicate.1 hc).2
  rw [unindented, String.toList_append, indentation, String.toList_ofList, dropWhile_append_of_pos hspaces]
  cases hcs : text.toList with
  | nil => rfl
  | cons c cs =>
    rw [hcs] at h
    rw [dropWhile_cons_of_neg]
    exact Bool.not_eq_true _ ▸ h

theorem depthFrom_line (hstart : Stops (fun c => c = ' ' || c = '\x7d') text.toList)
    (hlast : text.toList.getLast? = some c) (depth n : Nat) (ls : List String) :
    depthFrom n ((indentation depth ++ text) :: ls) = depthFrom (n + (c = '\x7b' : Bool).toNat) ls := by
  have hspace : Stops (· = ' ') text.toList := by
    unfold Stops at hstart ⊢
    cases hc : text.toList.head? with
    | none => rfl
    | some c =>
      rw [hc] at hstart
      exact (Bool.or_eq_false_iff.1 hstart).1
  have hcloses : closesBlock (indentation depth ++ text) = false := by
    rw [closesBlock, unindented_indentation hspace]
    cases hc : text.toList.head? with
    | none => rfl
    | some c =>
      rw [Stops, hc] at hstart
      simpa using (Bool.or_eq_false_iff.1 hstart).2
  have hopens : opensBlock (indentation depth ++ text) = decide (c = '\x7b') := by
    rw [opensBlock, String.toList_append, getLast?_append, hlast, some_or]
    simp
  rw [depthFrom, hcloses, hopens]
  rfl

theorem depthFrom_close (hstart : text.toList.head? = some '\x7d')
    (hlast : text.toList.getLast? = some c) (depth n : Nat) (ls : List String) :
    depthFrom (n + 1) ((indentation depth ++ text) :: ls) = depthFrom (n + (c = '\x7b' : Bool).toNat) ls := by
  have hspace : Stops (· = ' ') text.toList := by
    rw [Stops, hstart]
    rfl
  have hcloses : closesBlock (indentation depth ++ text) = true := by
    rw [closesBlock, unindented_indentation hspace, hstart]
    rfl
  have hopens : opensBlock (indentation depth ++ text) = decide (c = '\x7b') := by
    rw [opensBlock, String.toList_append, getLast?_append, hlast, some_or]
    simp
  rw [depthFrom, hcloses, hopens]
  rfl

def DeclaresAs (l : String) (word : Option (List Char)) : Prop :=
  ∀ name, Declares l name → word = some (wordOf name)

theorem declares_line (hkw : kw ∈ keywords)
    (htext : text.toList = kw ++ (name.toList ++ c :: rest)) (hc : isSeparator c) :
    Declares (indentation depth ++ text) name := by
  have hspace : ∀ kw ∈ keywords, ∃ c cs, kw = c :: cs ∧ c ≠ ' ' := by
    intro kw hkw
    simp only [keywords, mem_cons, not_mem_nil, or_false] at hkw
    rcases hkw with rfl | rfl | rfl <;> exact ⟨_, _, rfl, by decide⟩
  refine ⟨kw, hkw, c, rest, ?_, hc⟩
  rw [unindented_indentation _, htext]
  obtain ⟨d, cs, rfl, hd⟩ := hspace kw hkw
  rw [Stops, htext]
  exact decide_eq_false hd

theorem Declares.declaresAs (h : Declares l name) : DeclaresAs l (some (wordOf name)) :=
  fun _ h' => congrArg some (h.wordOf_eq h')

def isPlainStart (c d : Char) : Bool := c ≠ 'v' && !(c = 'l' && d = 'e') && !(c = 'f' && d = 'o')

theorem declaresAs_none {d : Char} (htext : text.toList = c :: d :: rest) (hspace : c ≠ ' ')
    (hstart : isPlainStart c d) (depth : Nat) : DeclaresAs (indentation depth ++ text) none := by
  rintro name ⟨kw, hkw, sep, after, heq, -⟩
  have hstops : Stops (· = ' ') text.toList := by
    rw [Stops, htext]
    exact decide_eq_false hspace
  rw [unindented_indentation hstops, htext] at heq
  simp only [keywords, mem_cons, not_mem_nil, or_false] at hkw
  -- each keyword is told by its first two characters
  rcases hkw with rfl | rfl | rfl <;>
  · have htail := (List.cons.inj heq).2
    rw [(List.cons.inj heq).1, (List.cons.inj htail).1] at hstart
    exact absurd hstart (by decide)

theorem declaresAs_none_of_brace (htext : text.toList = '\x7d' :: rest) (depth : Nat) :
    DeclaresAs (indentation depth ++ text) none := by
  rintro name ⟨kw, hkw, sep, after, heq, -⟩
  have hstops : Stops (· = ' ') text.toList := by
    rw [Stops, htext]
    rfl
  rw [unindented_indentation hstops, htext] at heq
  simp only [keywords, mem_cons, not_mem_nil, or_false] at hkw
  rcases hkw with rfl | rfl | rfl <;> cases heq

end ArrayKernel.Shader
