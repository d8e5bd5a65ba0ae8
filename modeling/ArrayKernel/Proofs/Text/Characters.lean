import ArrayKernel.IR.Literal
import ArrayKernel.Number.Reading
import ArrayKernel.Text.Blank

/-!
# The characters of a text

`Over p s` says that every character of a text is of one kind. It is kept by joining texts, and
known of numbers.
-/

namespace ArrayKernel.Text

open Number List

variable {p q : Char → Bool} {s t ds : String} {cs : List Char} {n : Nat} {c : Char}

/-! ## 1. Texts of one kind of characters -/

theorem mem_intercalate {α : Type} {sep : List α} {ls : List (List α)} {a : α}
    (h : a ∈ sep.intercalate ls) : a ∈ sep ∨ ∃ l ∈ ls, a ∈ l := by
  induction ls with
  | nil => cases h
  | cons l ls ih =>
    cases ls with
    | nil =>
      rw [intercalate_singleton] at h
      exact .inr ⟨l, mem_cons_self .., h⟩
    | cons l' ls =>
      rcases mem_append.1 h with h | h
      · exact .inr ⟨l, mem_cons_self .., h⟩
      · rcases mem_append.1 h with h | h
        · exact .inl h
        · obtain h | ⟨x, hx, h⟩ := ih h
          · exact .inl h
          · exact .inr ⟨x, mem_cons_of_mem _ hx, h⟩

def Over (p : Char → Bool) (s : String) : Prop := ∀ c ∈ s.toList, p c

namespace Over

theorem literal (h : cs.all p = true) : Over p (String.ofList cs) := by
  unfold Over
  rw [String.toList_ofList]
  exact all_eq_true.1 h

theorem ofList (h : ∀ c ∈ cs, p c) : Over p (String.ofList cs) := literal (all_eq_true.2 h)

theorem append (hs : Over p s) (ht : Over p t) : Over p (s ++ t) := by
  intro c hc
  rw [String.toList_append] at hc
  exact (mem_append.1 hc).elim (hs c) (ht c)

theorem mono (h : ∀ c, p c → q c) (hs : Over p s) : Over q s := fun c hc => h c (hs c hc)

section Fill

variable {l m n o r : List Char} {a b c d : String}

theorem fill₁ (hl : l.all p = true) (ha : Over p a) (hr : r.all p = true) :
    Over p (String.ofList l ++ a ++ String.ofList r) :=
  .append (.append (.literal hl) ha) (.literal hr)

theorem fill₂ (hl : l.all p = true) (ha : Over p a) (hm : m.all p = true) (hb : Over p b)
    (hr : r.all p = true) :
    Over p (String.ofList l ++ a ++ String.ofList m ++ b ++ String.ofList r) :=
  .append (.append (fill₁ hl ha hm) hb) (.literal hr)

theorem fill₃ (hl : l.all p = true) (ha : Over p a) (hm : m.all p = true) (hb : Over p b)
    (hn : n.all p = true) (hc : Over p c) (hr : r.all p = true) :
    Over p (String.ofList l ++ a ++ String.ofList m ++ b ++ String.ofList n ++ c ++ String.ofList r) :=
  .append (.append (fill₂ hl ha hm hb hn) hc) (.literal hr)

theorem fill₄ (hl : l.all p = true) (ha : Over p a) (hm : m.all p = true) (hb : Over p b)
    (hn : n.all p = true) (hc : Over p c) (ho : o.all p = true) (hd : Over p d)
    (hr : r.all p = true) :
    Over p (String.ofList l ++ a ++ String.ofList m ++ b ++ String.ofList n ++ c ++ String.ofList o ++ d
      ++ String.ofList r) :=
  .append (.append (fill₃ hl ha hm hb hn hc ho) hd) (.literal hr)

end Fill

theorem intercalate {sep : String} {ss : List String} (hsep : Over p sep)
    (hss : ∀ s ∈ ss, Over p s) : Over p (sep.intercalate ss) := by
  intro c hc
  rw [String.toList_intercalate] at hc
  rcases mem_intercalate hc with hc | ⟨l, hl, hc⟩
  · exact hsep c hc
  · obtain ⟨s, hs, rfl⟩ := mem_map.1 hl
    exact hss s hs c hc

theorem take (hs : Over p s) : Over p (String.ofList (s.toList.take n)) :=
  ofList fun c hc => hs c (mem_of_mem_take hc)

theorem drop (hs : Over p s) : Over p (String.ofList (s.toList.drop n)) :=
  ofList fun c hc => hs c (mem_of_mem_drop hc)

theorem replicate (n : Nat) (h : p c) : Over p (String.ofList (List.replicate n c)) :=
  ofList fun _ hd => (mem_replicate.1 hd).2 ▸ h

theorem ite {b : Prop} [Decidable b] (hs : Over p s) (ht : Over p t) :
    Over p (if b then s else t) := by
  split
  · exact hs
  · exact ht

end Over

theorem mem_replaceFrom {word value : List Char} (h : c ∈ replaceFrom word value n cs) :
    c ∈ value ∨ c ∈ cs := by
  fun_induction replaceFrom word value n cs with
  | case1 => cases h
  | case2 n _ cs ih => exact (ih h).imp_right (mem_cons_of_mem _)
  | case3 _ cs _ ih =>
    rcases mem_append.1 h with h | h
    · exact .inl h
    · exact (ih h).imp_right (mem_cons_of_mem _)
  | case4 d cs _ ih =>
    rcases mem_cons.1 h with rfl | h
    · exact .inr (mem_cons_self ..)
    · exact (ih h).imp_right (mem_cons_of_mem _)

/-! ## 2. Numbers -/

theorem toList_toString_nat (n : Nat) : (toString n).toList = Nat.toDigits 10 n := by
  rw [Nat.toString_eq_ofList_toDigits, String.toList_ofList]

theorem over_nat (h : ∀ c, c.isDigit → p c) : Over p (toString n) := by
  intro c hc
  rw [toList_toString_nat] at hc
  exact h c (Nat.isDigit_of_mem_toDigits (by decide) (by decide) hc)

theorem hexDigit?_of_isDigit (h : c.isDigit) : hexDigit? c = some (c.toNat - '0'.toNat) := by
  unfold hexDigit?
  simp only [Char.isDigit, Bool.and_eq_true, decide_eq_true_eq] at h
  rw [if_pos]
  · rfl
  · simp only [Bool.and_eq_true, decide_eq_true_eq]
    exact h

theorem natOfDigits_toDigits (n : Nat) : natOfDigits 10 (Nat.toDigits 10 n) = n := by
  have hdigits : ∀ c ∈ Nat.toDigits 10 n, c.isDigit := fun c hc =>
    Nat.isDigit_of_mem_toDigits (by decide) (by decide) hc
  calc natOfDigits 10 (Nat.toDigits 10 n)
      = (Nat.toDigits 10 n).foldl (fun m c => 10 * m + (c.toNat - '0'.toNat)) 0 := by
        refine foldl_rel rfl fun c hc m m' hm => ?_
        rw [hexDigit?_of_isDigit (hdigits c hc), Option.getD_some, Nat.mul_comm, hm]
    _ = n := by rw [← Nat.ofDigitChars_eq_foldl, Nat.ofDigitChars_ten_toDigits]

theorem readNatBelow?_toDigits {limit : Nat} (h : n < limit) :
    readNatBelow? limit (Nat.toDigits 10 n) = some n := by
  have hdigits : (Nat.toDigits 10 n).all Char.isDigit = true := all_eq_true.2 fun c hc =>
    Nat.isDigit_of_mem_toDigits (by decide) (by decide) hc
  have hread : readDigits? (Nat.toDigits 10 n) = some n := by
    simp [readDigits?, hdigits, natOfDigits_toDigits]
  have hnat : readNat? (Nat.toDigits 10 n) = some n := by
    unfold readNat?
    split
    · rename_i ds hds
      rw [hds] at hdigits
      cases hdigits
    · exact hread
  rw [readNatBelow?, hnat, Option.bind_some, if_pos h]

def isNumeric (c : Char) : Bool := c.isAlphanum || c = '.' || c = '-'

theorem isNumeric_of_isDigit (h : c.isDigit) : isNumeric c := by
  simp [isNumeric, Char.isAlphanum, h]

theorem over_numeric_nat (n : Nat) : Over isNumeric (toString n) :=
  over_nat (fun _ => isNumeric_of_isDigit)

theorem over_numeric_int (i : Int) : Over isNumeric (toString i) := by
  cases i with
  | ofNat n => exact over_numeric_nat n
  | negSucc n => exact .append (.literal rfl) (over_numeric_nat (n + 1))

theorem over_numeric_positional (h : Over isNumeric ds) (e : Int) :
    Over isNumeric (Layout.standard.positional ds e) := by
  unfold Layout.positional
  extract_lets n
  split
  · exact .append (.append (.literal rfl) (.replicate _ rfl)) h
  · split
    · exact .append (.append h (.replicate _ rfl)) (.literal rfl)
    · exact .append (.append h.take (.literal rfl)) h.drop

theorem over_numeric_scientific (h : Over isNumeric ds) (e : Int) :
    Over isNumeric (Layout.scientific ds e) := by
  unfold Layout.scientific
  split
  · rename_i d x rest hds
    refine .append (.append (.ofList ?_) (.literal rfl)) (over_numeric_int e)
    have hall : ∀ c ∈ d :: x :: rest, isNumeric c := by
      rw [← hds]
      exact h
    intro c hc
    rcases mem_cons.1 hc with rfl | hc
    · exact hall _ (mem_cons_self ..)
    · rcases mem_cons.1 hc with rfl | hc
      · rfl
      · exact hall c (mem_cons_of_mem _ hc)
  · exact .append (.append h (.literal rfl)) (over_numeric_int e)

theorem over_numeric_write (f : Format) (d : Datum) :
    Over isNumeric (Layout.standard.write f d) := by
  have hsign : ∀ negative : Bool, Over isNumeric (if negative then "-" else "") :=
    fun _ => .ite (.literal rfl) (.literal rfl)
  cases d with
  | nan => exact .literal rfl
  | infinite negative => exact .append (hsign negative) (.literal rfl)
  | finite negative m q =>
    unfold Layout.write
    dsimp only
    split
    · exact .append (.append (hsign negative) (.literal rfl)) (.literal rfl)
    · have hds := over_numeric_nat (f.shortest m q).digits
      exact .append (hsign negative) (.ite (over_numeric_positional hds _) (over_numeric_scientific hds _))

end ArrayKernel.Text
