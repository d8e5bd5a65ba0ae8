import Mathlib.Algebra.Group.Nat.Defs
import ArrayKernel.Proofs.Text.Characters
import ArrayKernel.Shader.Reading

/-!
# Reading shader texts

`Takes m text a rest` says what a step takes off the front of a text, and leaves positions open.
The second half is about finding attributes.
-/

namespace ArrayKernel.Shader

open Text Number List

variable {α β : Type} {text rest word : List Char} {c : Char} {n : Nat} {m : Read α} {a : α}
  {f : α → Read β} {token : String}

/-! ## 1. Steps -/

def Takes (m : Read α) (text : List Char) (a : α) (rest : List Char) : Prop :=
  ∀ offset, ∃ offset', m ⟨offset, text⟩ = .ok (a, ⟨offset', rest⟩)

namespace Takes

theorem pure (a : α) (text : List Char) : Takes (Pure.pure a) text a text :=
  fun offset => ⟨offset, rfl⟩

theorem bind {b : β} {mid : List Char} (hm : Takes m text a mid)
    (hf : Takes (f a) mid b rest) : Takes (m >>= f) text b rest := by
  intro offset
  obtain ⟨o1, h1⟩ := hm offset
  obtain ⟨o2, h2⟩ := hf o1
  refine ⟨o2, ?_⟩
  show (m ⟨offset, text⟩ >>= fun x => f x.1 x.2) = _
  rw [h1]
  exact h2

end Takes

/-- Reading characters of a kind stops here: the first character, if there is one, is not of the
kind. -/
def Stops (p : Char → Bool) (text : List Char) : Prop := text.head?.any p = false

theorem stops_nil (p : Char → Bool) : Stops p [] := rfl

theorem takeWhile_append_of_stops {p : Char → Bool} (hw : ∀ c ∈ word, p c) (hr : Stops p rest) :
    (word ++ rest).takeWhile p = word := by
  induction word with
  | nil =>
    cases rest with
    | nil => rfl
    | cons c cs =>
      have hc : p c = false := hr
      simp [hc]
  | cons c word ih =>
    rw [cons_append, takeWhile_cons_of_pos (hw c (mem_cons_self ..)),
      ih fun d hd => hw d (mem_cons_of_mem _ hd)]

theorem advance_append (offset : Nat) (word rest : List Char) :
    Reader.advance ⟨offset, word ++ rest⟩ word.length = ⟨offset + byteLength word, rest⟩ := by
  simp [Reader.advance]

theorem takes_skipBlanks {f : Reader → Read α} (ht : Stops isBlank text)
    (hf : ∀ offset, ∃ offset', f ⟨offset, text⟩ ⟨offset, text⟩ = .ok (a, ⟨offset', rest⟩)) :
    Takes (do modify Reader.skipBlanks; let r ← get; f r) text a rest := by
  intro offset
  have hskip : Reader.skipBlanks ⟨offset, text⟩ = ⟨offset, text⟩ := by
    show Reader.advance ⟨offset, text⟩ (([] ++ text).takeWhile isBlank).length = _
    rw [takeWhile_append_of_stops (forall_mem_nil _) ht]
    rfl
  show ∃ offset', f (Reader.skipBlanks ⟨offset, text⟩) (Reader.skipBlanks ⟨offset, text⟩) = _
  rw [hskip]
  exact hf _

def Skips (m : Read α) : Prop := ∀ offset text, m ⟨offset, ' ' :: text⟩ = m ⟨offset + 1, text⟩

theorem skipBlanks_space {offset : Nat} :
    Reader.skipBlanks ⟨offset, ' ' :: text⟩ = Reader.skipBlanks ⟨offset + 1, text⟩ := by
  have hspace : isBlank ' ' := rfl
  have hone : (' ' : Char).utf8Size = 1 := rfl
  simp [Reader.skipBlanks, Reader.advance, hspace, byteLength, hone, add_assoc]

theorem skips_modify {f : Unit → Read α} : Skips (modify Reader.skipBlanks >>= f) := by
  intro offset text
  show f () (Reader.skipBlanks ⟨offset, ' ' :: text⟩) = f () (Reader.skipBlanks ⟨offset + 1, text⟩)
  rw [skipBlanks_space]

theorem Skips.bind (hm : Skips m) : Skips (m >>= f) := by
  intro offset text
  show (m ⟨offset, ' ' :: text⟩ >>= fun x => f x.1 x.2) = (m ⟨offset + 1, text⟩ >>= fun x => f x.1 x.2)
  rw [hm]

theorem Takes.space (hm : Skips m) (h : Takes m text a rest) : Takes m (' ' :: text) a rest := by
  intro offset
  obtain ⟨offset', h'⟩ := h (offset + 1)
  exact ⟨offset', (hm offset text).trans h'⟩

theorem takes_eat (token : String) (ht : Stops isBlank (token.toList ++ rest)) :
    Takes (eat token) (token.toList ++ rest) true rest := by
  refine takes_skipBlanks ht fun offset => ?_
  have hstart : token.toList.isPrefixOf (token.toList ++ rest) := isPrefixOf_iff_prefix.2 (prefix_append ..)
  rw [if_pos hstart, advance_append]
  exact ⟨_, rfl⟩

theorem takes_eat_false (hr : Stops isBlank rest) (ht : token.toList.isPrefixOf rest = false) :
    Takes (eat token) rest false rest := by
  refine takes_skipBlanks hr fun offset => ?_
  rw [if_neg (by rw [ht]; exact Bool.false_ne_true)]
  exact ⟨_, rfl⟩

theorem takes_expect (token : String) (ht : Stops isBlank (token.toList ++ rest)) :
    Takes (expect token) (token.toList ++ rest) () rest :=
  (takes_eat token ht).bind (.pure () rest)

theorem skips_expect : Skips (expect token) := skips_modify.bind

theorem isBlank_eq_false (h : 0x20 < c.toNat) (h' : c.toNat < 0x80) : isBlank c = false := by
  simp only [isBlank, Bool.or_eq_false_iff, Bool.and_eq_false_iff, decide_eq_false_iff_not]
  omega

theorem isWordChar_bounds (h : isWordChar c) : 0x30 ≤ c.toNat ∧ c.toNat < 0x7b := by
  have hupper : c.isUpper = decide (c.val ≥ 'A'.val ∧ c.val ≤ 'Z'.val) := rfl
  have hlower : c.isLower = (c.val ≥ 'a'.val && c.val ≤ 'z'.val) := rfl
  have halpha : c.isAlpha = (c.isUpper || c.isLower) := rfl
  simp only [isWordChar, Char.isAlphanum, halpha, hupper, hlower, Char.isDigit, Bool.or_eq_true,
    Bool.and_eq_true, decide_eq_true_eq, UInt32.le_iff_toNat_le] at h
  have hval : c.val.toNat = c.toNat := rfl
  rcases h with ((h | h) | h) | rfl
  · have hA : 'A'.val.toNat = 0x41 := rfl
    have hZ : 'Z'.val.toNat = 0x5a := rfl
    omega
  · have ha : 'a'.val.toNat = 0x61 := rfl
    have hz : 'z'.val.toNat = 0x7a := rfl
    omega
  · have h0 : '0'.val.toNat = 0x30 := rfl
    have h9 : '9'.val.toNat = 0x39 := rfl
    omega
  · decide

theorem stops_blank (hne : word ≠ []) (hw : ∀ c ∈ word, isWordChar c) :
    Stops isBlank (word ++ rest) := by
  cases word with
  | nil => exact absurd rfl hne
  | cons c cs =>
    obtain ⟨h1, h2⟩ := isWordChar_bounds (hw c (mem_cons_self ..))
    exact isBlank_eq_false (by omega) (by omega)

theorem takes_identifier {w r : List Char} (hne : w ≠ []) (hw : ∀ c ∈ w, isWordChar c)
    (hr : Stops isWordChar r) : Takes identifier (w ++ r) (String.ofList w) r := by
  refine takes_skipBlanks (stops_blank hne hw) fun offset => ?_
  rw [takeWhile_append_of_stops hw hr]
  split
  · contradiction
  · rw [advance_append]
    exact ⟨_, rfl⟩

theorem isDigit_toDigits (n : Nat) : ∀ c ∈ Nat.toDigits 10 n, c.isDigit := fun _ hc =>
  Nat.isDigit_of_mem_toDigits (by decide) (by decide) hc

theorem takes_number (hn : n < 2 ^ 32)
    (hr : Stops (fun c => c.isDigit || c = 'u' || c = 'i') rest) :
    Takes number (Nat.toDigits 10 n ++ rest) n rest := by
  have hstops : Stops Char.isDigit rest := by
    cases rest with
    | nil => rfl
    | cons c cs =>
      simp only [Stops, head?_cons, Option.any_some, Bool.or_eq_false_iff] at hr ⊢
      exact hr.1.1
  have hblank : Stops isBlank (Nat.toDigits 10 n ++ rest) :=
    stops_blank Nat.toDigits_ne_nil fun c hc => by simp [isWordChar, Char.isAlphanum, isDigit_toDigits n c hc]
  refine takes_skipBlanks hblank fun offset => ?_
  rw [takeWhile_append_of_stops (isDigit_toDigits n) hstops, readNatBelow?_toDigits hn]
  rw [advance_append]
  cases rest with
  | nil => exact ⟨_, rfl⟩
  | cons c cs =>
    simp only [Stops, head?_cons, Option.any_some, Bool.or_eq_false_iff, decide_eq_false_iff_not] at hr
    refine ⟨offset + byteLength (Nat.toDigits 10 n), ?_⟩
    simp [hr]
    rfl

theorem takes_untilSemicolon (hw : ';' ∉ word) :
    Takes untilSemicolon (word ++ ';' :: rest) word rest := by
  have htake : (word ++ ';' :: rest).takeWhile (· != ';') = word :=
    takeWhile_append_of_stops (fun c hc => bne_iff_ne.2 fun h => hw (h ▸ hc)) rfl
  intro offset
  have hadvance : Reader.advance ⟨offset, word ++ ';' :: rest⟩ (word.length + 1)
      = ⟨offset + byteLength (word ++ [';']), rest⟩ := by
    rw [← advance_append, append_assoc, length_append]
    rfl
  refine ⟨offset + byteLength (word ++ [';']), ?_⟩
  show (let text := (word ++ ';' :: rest).takeWhile (· != ';')
    if text.length = (word ++ ';' :: rest).length then fail "missing \x60;\x60"
    else do
      set (Reader.advance ⟨offset, word ++ ';' :: rest⟩ (text.length + 1))
      return text : Read (List Char)) ⟨offset, word ++ ';' :: rest⟩ = _
  rw [htake]
  rw [if_neg (by simp), hadvance]
  rfl

/-! ## 2. Declarations -/

theorem takes_attributeNumber (name : String) (hname : ∀ rest, Stops isBlank (name.toList ++ rest))
    (hn : n < 2 ^ 32) :
    Takes (attributeNumber name) (name.toList ++ ("(".toList ++ (Nat.toDigits 10 n ++ (")".toList ++ rest)))) n rest :=
  (takes_expect name (hname _)).bind <| (takes_expect "(" rfl).bind <|
    (takes_number hn (by rfl)).bind <| (takes_expect ")" rfl).bind (.pure n rest)

theorem access_ofName?_name {a : Access} : Access.ofName? a.name = some a := by cases a <;> rfl

theorem over_word_access {a : Access} : Over isWordChar a.name := by cases a <;> exact .literal rfl

theorem takes_accessMode {a : Access} :
    Takes accessMode ("<".toList ++ ("storage".toList ++ (",".toList ++ (' ' :: (a.name.toList ++ (">".toList ++ rest))))))
      (some a) rest := by
  have hne : a.name.toList ≠ [] := by cases a <;> decide
  have hmode : Takes identifier (a.name.toList ++ (">".toList ++ rest)) a.name (">".toList ++ rest) := by
    have hread := takes_identifier (r := ">".toList ++ rest) hne over_word_access rfl
    rwa [String.ofList_toList] at hread
  refine (takes_eat "<" rfl).bind ?_
  refine (takes_identifier (by decide) (all_eq_true.1 rfl) (by rfl)).bind ?_
  refine (takes_eat "," rfl).bind ((hmode.space skips_modify).bind ?_)
  rw [access_ofName?_name]
  exact (Takes.pure a _).bind ((takes_expect ">" rfl).bind (.pure (some a) rest))

theorem isPrefixOf_eq_false (hne : word ≠ []) (h : word.head? ≠ some c) :
    word.isPrefixOf (c :: rest) = false := by
  cases word with
  | nil => exact absurd rfl hne
  | cons d word =>
    have hd : d ≠ c := fun heq => h (congrArg some heq)
    simp [List.isPrefixOf, hd]

theorem takes_accessMode_none (hne : word ≠ []) (hw : ∀ c ∈ word, isWordChar c) :
    Takes accessMode (word ++ rest) none (word ++ rest) := by
  have hangle : "<".toList.isPrefixOf (word ++ rest) = false := by
    cases word with
    | nil => exact absurd rfl hne
    | cons c cs =>
      refine isPrefixOf_eq_false (by decide) fun h => ?_
      cases h
      exact absurd (hw '<' (mem_cons_self ..)) (by decide)
  exact (takes_eat_false (stops_blank hne hw) hangle).bind (.pure none _)

theorem Takes.run' (h : Takes m text a rest) (offset : Nat) : m.run' ⟨offset, text⟩ = .ok a := by
  obtain ⟨offset', h⟩ := h offset
  show Prod.fst <$> m ⟨offset, text⟩ = _
  rw [h]
  rfl

theorem takes_workgroupSize (hn : n < 2 ^ 32) :
    Takes workgroupSize ("@workgroup_size".toList ++ ("(".toList ++ (Nat.toDigits 10 n ++ (")".toList ++ rest))))
      (n, 1, 1) rest := by
  refine (takes_expect "@workgroup_size" rfl).bind ((takes_expect "(" rfl).bind ?_)
  refine (takes_number hn (by rfl)).bind ?_
  have hcomma : Takes (eat ",") (")".toList ++ rest) false (")".toList ++ rest) := takes_eat_false rfl rfl
  exact hcomma.bind ((hcomma.bind (takes_expect ")" rfl)).bind (.pure _ rest))

/-! ## 3. Finding words -/

variable {word : List Char} {a b : List Char}

theorem byteLength_append (a b : List Char) :
    byteLength (a ++ b) = byteLength a + byteLength b := by
  simp [byteLength]

def differ (a b : List Char) : Bool := (a.zip b).any fun (c, d) => c != d

theorem isPrefixOf_of_differ (h : differ word a) : word.isPrefixOf (a ++ rest) = false := by
  induction word generalizing a with
  | nil => cases h
  | cons c word ih =>
    cases a with
    | nil => cases h
    | cons d a =>
      by_cases hcd : c = d
      · have hrest : differ word a := by simpa [differ, hcd] using h
        simp [hcd, ih hrest]
      · simp [List.isPrefixOf, hcd]

/-- No occurrence of the word starts in the stretch, whatever follows. -/
def Passes (word stretch : List Char) : Prop :=
  ∀ before offset rest, occurrences word before ⟨offset, stretch ++ rest⟩
    = occurrences word (stretch.getLast?.or before) ⟨offset + byteLength stretch, rest⟩

namespace Passes

theorem nil (word : List Char) : Passes word [] := fun _ _ _ => rfl

theorem append (ha : Passes word a) (hb : Passes word b) : Passes word (a ++ b) := by
  intro before offset rest
  rw [append_assoc, ha, hb, getLast?_append, Option.or_assoc, byteLength_append, add_assoc]

theorem cons (hc : ∀ rest, word.isPrefixOf (c :: a ++ rest) = false) (ha : Passes word a) :
    Passes word (c :: a) := by
  intro before offset rest
  have hlast : (c :: a).getLast?.or before = a.getLast?.or (some c) := by
    cases a with
    | nil => rfl
    | cons d a => simp [getLast?_cons]
  have hstart : afterStart? word (c :: (a ++ rest)) = none := if_neg (by rw [← cons_append, hc]; decide)
  rw [cons_append, occurrences, hstart, if_neg (by decide), ha, hlast]
  congr 2
  show offset + c.utf8Size + byteLength a = offset + byteLength (c :: a)
  simp [byteLength, add_assoc]

theorem of_head (hne : word ≠ []) (h : ∀ c ∈ a, word.head? ≠ some c) : Passes word a := by
  induction a with
  | nil => exact nil word
  | cons c a ih =>
    exact cons (fun _ => isPrefixOf_eq_false hne (h c (mem_cons_self ..)))
      (ih fun c hc => h c (mem_cons_of_mem _ hc))

theorem of_clean (hw : word.head? = some '@') (h : '@' ∉ a) : Passes word a := by
  refine of_head (by rintro rfl; cases hw) fun c hc heq => h ?_
  rw [hw] at heq
  cases heq
  exact hc

theorem other {name : List Char} (hw : word.head? = some '@') (hname : '@' ∉ name)
    (h : differ word ('@' :: name)) : Passes word ('@' :: name) :=
  cons (fun _ => isPrefixOf_of_differ h) (of_clean hw hname)

theorem eq_nil (h : Passes word a) (before : Option Char) (offset : Nat) :
    occurrences word before ⟨offset, a⟩ = [] := by
  have ha := h before offset []
  rw [append_nil] at ha
  rw [ha, occurrences]

end Passes

theorem occurrences_cons (word rest : List Char) (hword : word.head? = some c)
    (hr : Stops isWordChar rest) (before : Option Char) (offset : Nat) :
    occurrences word before ⟨offset, word ++ rest⟩
      = (before, ⟨offset, word ++ rest⟩) :: occurrences word (some c) ⟨offset + c.utf8Size, word.tail ++ rest⟩ := by
  cases word with
  | nil => cases hword
  | cons d word =>
    cases hword
    have hstart : afterStart? (c :: word) (c :: (word ++ rest)) = some rest := by
      simp [afterStart?]
    have hhere : (!rest.head?.any isWordChar) = true := by rw [hr]; rfl
    rw [cons_append, occurrences, hstart, if_pos hhere]
    rfl

/-! ## 4. Comments -/

attribute [local simp] stripFrom

def Uncommented (stretch : List Char) : Prop :=
  ∀ rest, stripFrom .outside (stretch ++ rest) = stretch ++ stripFrom .outside rest

namespace Uncommented

theorem append (ha : Uncommented a) (hb : Uncommented b) : Uncommented (a ++ b) := by
  intro rest
  rw [append_assoc, ha, hb, append_assoc]

theorem of_not_mem (h : '/' ∉ a) : Uncommented a := by
  intro rest
  induction a with
  | nil => rfl
  | cons c a ih =>
    have hc : c ≠ '/' := fun heq => h (heq ▸ mem_cons_self ..)
    have hstep : stripFrom .outside (c :: (a ++ rest)) = c :: stripFrom .outside (a ++ rest) := by
      simp [hc]
    rw [cons_append, hstep, ih fun hm => h (mem_cons_of_mem _ hm), cons_append]

/-- It is enough that the stretch stays as it is before the one character that could start a comment
with its last. -/
theorem of_strip (h : stripFrom .outside (a ++ ['/']) = a ++ ['/']) : Uncommented a := by
  intro rest
  induction a with
  | nil => rfl
  | cons c a ih =>
    by_cases hc : c = '/'
    · subst hc
      cases a with
      | nil => exact absurd h (by decide)
      | cons d a =>
        have hslash : d ≠ '/' := by
          rintro rfl
          simp at h
        have hstar : d ≠ '*' := by
          rintro rfl
          simp at h
        have hstep (rest : List Char) : stripFrom .outside ('/' :: d :: (a ++ rest))
            = '/' :: stripFrom .outside (d :: (a ++ rest)) := by
          simp [hslash, hstar]
        simp only [cons_append, hstep, List.cons.injEq, true_and] at h ih ⊢
        exact ih h
    · have hstep (rest : List Char) : stripFrom .outside (c :: (a ++ rest)) = c :: stripFrom .outside (a ++ rest) := by
        simp [hc]
      simp only [cons_append, hstep, List.cons.injEq, true_and] at h ⊢
      exact ih h

theorem literal (h : stripFrom .outside (a ++ ['/']) = a ++ ['/']) :
    Uncommented (String.ofList a).toList := by
  rw [String.toList_ofList]
  exact of_strip h

theorem intercalate {sep : String} {ss : List String} (hsep : Uncommented sep.toList)
    (hss : ∀ s ∈ ss, Uncommented s.toList) : Uncommented (sep.intercalate ss).toList := by
  rw [String.toList_intercalate]
  induction ss with
  | nil => exact fun _ => rfl
  | cons s ss ih =>
    have hs := hss s (mem_cons_self ..)
    cases ss with
    | nil =>
      rw [map_singleton, intercalate_singleton]
      exact hs
    | cons s' ss =>
      rw [map_cons, map_cons, intercalate_cons_cons]
      exact (hs.append hsep).append (ih fun s hs => hss s (mem_cons_of_mem _ hs))

end Uncommented

theorem stripFrom_line (h : '\n' ∉ a) (rest : List Char) :
    ∃ n, stripFrom .line (a ++ '\n' :: rest) = List.replicate n ' ' ++ '\n' :: stripFrom .outside rest := by
  induction a with
  | nil => exact ⟨0, rfl⟩
  | cons c a ih =>
    obtain ⟨n, ih⟩ := ih fun hm => h (mem_cons_of_mem _ hm)
    have hc : c ≠ '\n' := fun heq => h (heq ▸ mem_cons_self ..)
    have hstep : stripFrom .line (c :: (a ++ '\n' :: rest)) = blankOf c ++ stripFrom .line (a ++ '\n' :: rest) := by
      simp
    refine ⟨c.utf8Size + n, ?_⟩
    rw [cons_append, hstep, ih, blankOf, ← append_assoc, replicate_append_replicate]

/-- Some characters, but no end of a line, have become as many blanks as they have bytes. -/
inductive Blanked : List Char → List Char → Prop where
  | nil : Blanked [] []
  | keep (c : Char) {a b : List Char} (h : Blanked a b) : Blanked (c :: a) (c :: b)
  | blank {c : Char} {a b : List Char} (hc : c ≠ '\n') (h : Blanked a b) :
    Blanked (c :: a) (blankOf c ++ b)

namespace Blanked

theorem byteLength_eq (h : Blanked a b) : byteLength b = byteLength a := by
  induction h with
  | nil => rfl
  | keep c _ ih => simpa [byteLength] using ih
  | blank _ _ ih =>
    have hblank : (' ' : Char).utf8Size = 1 := rfl
    rw [byteLength_append, ih]
    simp [byteLength, blankOf, hblank]

theorem mem (h : Blanked a b) (hc : c ∈ b) : c ∈ a ∨ c = ' ' := by
  induction h with
  | nil => cases hc
  | keep _ _ ih => grind
  | blank _ _ ih => grind [blankOf]

theorem pair {d : Char} (h : Blanked a b) (hc : c = '/' ∨ c = '*') (hd : d = '/' ∨ d = '*') :
    Blanked (c :: d :: a) (' ' :: ' ' :: b) := by
  rcases hc with rfl | rfl <;> rcases hd with rfl | rfl <;>
    exact .blank (by decide) (.blank (by decide) h)

end Blanked

/-- Comments, closed or not, are blanked in place: what is left of a text stands on its line and
at its byte. -/
theorem blanked_stripFrom (s : CommentState) (text : List Char) :
    Blanked text (stripFrom s text) := by
  fun_induction stripFrom s text with
  | case1 => exact .nil
  | case2 _ ih | case3 _ ih | case7 _ _ ih | case8 _ _ ih => exact ih.pair (by simp) (by simp)
  | case4 c _ _ _ ih => exact .keep c ih
  | case5 _ ih | case9 _ _ ih => exact .keep _ ih
  | case6 _ _ hc ih | case10 _ _ _ _ _ hc ih => exact .blank hc ih

end ArrayKernel.Shader
