import ArrayKernel.Proofs.Number.Text
import ArrayKernel.Proofs.Shader.Reading
import ArrayKernel.Scope.Notation

/-!
# What is written can be told from its text

`Tells a b P` says that `P` holds and that two texts end at the same place wherever they start two
lists that are the same, if no number or word goes on after them. So no two sets of named values
are written alike: `ofBindings_injective`.
-/

namespace ArrayKernel

open IR

def Literal.IsNumber : Literal → Prop
  | .f32 v => v.isNaN = false
  | _ => True

mutual

/-- Values made of numbers and resources, without a NaN. -/
def Value.IsData : Value → Prop
  | .number l => l.IsNumber
  | .array ls _ => ∀ l ∈ ls, l.IsNumber
  | .field _ | .texture _ => True
  | .record r => r.IsData
  | _ => False

def Record.IsData : Record → Prop
  | .nil => True
  | .cons _ v rest => v.IsData ∧ rest.IsData

end

end ArrayKernel

namespace ArrayKernel.Notation

open IR Number Shader Text List

variable {a b : String} {P Q : Prop} {p s t : List Char} {c : Char}

/-! ## 1. Texts that tell something -/

abbrev Ends (s : List Char) : Prop := Stops isNumeric s

/-- Where the texts start two lists that are the same, they end at the same place, and the statement
holds. -/
def Tells (a b : String) (P : Prop) : Prop :=
  ∀ s t, Ends s → Ends t → a.toList ++ s = b.toList ++ t → P ∧ s = t

theorem Tells.imp (h : Tells a b P) (hpq : P → Q) : Tells a b Q := fun s t hs ht heq =>
  (h s t hs ht heq).imp_left hpq

theorem Tells.of_eq (h : Tells a b P) (heq : a = b) : P :=
  (h [] [] (stops_nil _) (stops_nil _) (by rw [heq])).1

theorem tells_word (ha : Over isNumeric a) (hb : Over isNumeric b) : Tells a b (a = b) := by
  intro s t hs ht h
  have hab : a.toList = b.toList := by
    rw [← takeWhile_append_of_stops ha hs, h, takeWhile_append_of_stops hb ht]
  rw [hab] at h
  exact ⟨String.toList_inj.1 hab, append_cancel_left h⟩

def Starts (p : List Char) (a : String) : Prop := p <+: a.toList

theorem tells_apart {q : List Char} (ha : Starts p a) (hb : Starts q b) (h : differ p q = true) :
    Tells a b P := by
  intro s t _ _ heq
  obtain ⟨r, hr⟩ := ha
  obtain ⟨r', hr'⟩ := hb
  rw [← hr, ← hr', append_assoc, append_assoc] at heq
  have hprefix : p.isPrefixOf (q ++ (r' ++ t)) = true := by
    rw [← heq]
    exact isPrefixOf_iff_prefix.2 (prefix_append _ _)
  rw [isPrefixOf_of_differ h] at hprefix
  cases hprefix

/-! ## 2. Quoted texts -/

theorem hexDigit?_digitChar : ∀ d : Fin 16, hexDigit? (Nat.digitChar d) = some d.1 := by decide

theorem toDigits_hexadecimal (n : Nat) :
    (∀ c ∈ Nat.toDigits 16 n, isHexDigit c = true) ∧ natOfDigits 16 (Nat.toDigits 16 n) = n := by
  induction n using Nat.strongRecOn with
  | _ n ih =>
    have hdigit (d : Nat) (hd : d < 16) : hexDigit? (Nat.digitChar d) = some d := hexDigit?_digitChar ⟨d, hd⟩
    by_cases hn : n < 16
    · rw [Nat.toDigits_of_lt_base hn]
      simp [isHexDigit, natOfDigits, hdigit n hn]
    · have hlast := hdigit (n % 16) (Nat.mod_lt _ (by decide))
      obtain ⟨hmem, hvalue⟩ := ih (n / 16) (by omega)
      rw [Nat.toDigits_of_base_le (by decide) (by omega), natOfDigits_append, hvalue]
      constructor
      · intro c hc
        rcases mem_append.1 hc with hc | hc
        · exact hmem c hc
        · rw [mem_singleton.1 hc, isHexDigit, hlast]
          rfl
      · simp only [natOfDigits, foldl_cons, foldl_nil, length_singleton, hlast, Option.getD_some]
        omega

theorem toList_hex (n : Nat) : (hex 1 n).toList = Nat.toDigits 16 n := by
  have hpos : 0 < (Nat.toDigits 16 n).length := Nat.length_toDigits_pos
  rw [hex, String.toList_ofList, Nat.sub_eq_zero_of_le hpos]
  rfl

def unescape : List Char → Option (Char × List Char)
  | '\\' :: 'u' :: '\x7b' :: s =>
    some (Char.ofNat (natOfDigits 16 (s.takeWhile (· != '\x7d'))), (s.dropWhile (· != '\x7d')).tail)
  | '\\' :: '0' :: s => some ('\x00', s)
  | '\\' :: 't' :: s => some ('\t', s)
  | '\\' :: 'r' :: s => some ('\r', s)
  | '\\' :: 'n' :: s => some ('\n', s)
  | '\\' :: c :: s => some (c, s)
  | c :: s => some (c, s)
  | [] => none

theorem unescape_escape (c : Char) (s : List Char) :
    unescape ((escape c).toList ++ s) = some (c, s) := by
  unfold escape
  split
  · rfl
  · rfl
  · rfl
  · rfl
  · rfl
  · rfl
  · rename_i hslash
    split
    · obtain ⟨hhex, hvalue⟩ := toDigits_hexadecimal c.toNat
      have hdigits : ∀ d ∈ Nat.toDigits 16 c.toNat, (d != '\x7d') = true := by
        intro d hd
        rw [bne_iff_ne]
        rintro rfl
        exact absurd (hhex _ hd) (by decide)
      have htext : ("\\u\x7b" ++ hex 1 c.toNat ++ "\x7d").toList ++ s
          = '\\' :: 'u' :: '\x7b' :: (Nat.toDigits 16 c.toNat ++ '\x7d' :: s) := by
        simp only [String.toList_append, toList_hex, append_assoc]
        rfl
      rw [htext, unescape, takeWhile_append_of_pos hdigits, dropWhile_append_of_pos hdigits]
      simp [hvalue]
    · have htext : (String.singleton c).toList ++ s = c :: s := by simp
      unfold unescape
      split <;> simp_all

theorem escape_ne_quote (c : Char) : ∃ d r, (escape c).toList = d :: r ∧ d ≠ '"' := by
  unfold escape
  split
  · exact ⟨_, _, rfl, by decide⟩
  · exact ⟨_, _, rfl, by decide⟩
  · exact ⟨_, _, rfl, by decide⟩
  · exact ⟨_, _, rfl, by decide⟩
  · exact ⟨_, _, rfl, by decide⟩
  · exact ⟨_, _, rfl, by decide⟩
  · rename_i hquote _
    split
    · exact ⟨'\\', _, by simp only [String.toList_append]; rfl, by decide⟩
    · exact ⟨c, [], by simp, hquote⟩

theorem escapes_told {cs ds : List Char}
    (h : cs.flatMap (fun c => (escape c).toList) ++ '"' :: s = ds.flatMap (fun c => (escape c).toList) ++ '"' :: t) :
    cs = ds ∧ s = t := by
  induction cs generalizing ds with
  | nil =>
    cases ds with
    | nil => exact ⟨rfl, tail_eq_of_cons_eq h⟩
    | cons d ds =>
      obtain ⟨x, r, hx, hne⟩ := escape_ne_quote d
      rw [flatMap_cons, hx] at h
      exact absurd (cons.inj h).1.symm hne
  | cons c cs ih =>
    cases ds with
    | nil =>
      obtain ⟨x, r, hx, hne⟩ := escape_ne_quote c
      rw [flatMap_cons, hx] at h
      exact absurd (cons.inj h).1 hne
    | cons d ds =>
      rw [flatMap_cons, flatMap_cons, append_assoc, append_assoc] at h
      have hread := congrArg unescape h
      rw [unescape_escape, unescape_escape] at hread
      obtain ⟨rfl, hrest⟩ := Prod.mk.inj (Option.some.inj hread)
      obtain ⟨rfl, hst⟩ := ih hrest
      exact ⟨rfl, hst⟩

theorem toList_quoted (a : String) :
    (quoted a).toList = '"' :: (a.toList.flatMap (fun c => (escape c).toList) ++ ['"']) := by
  unfold quoted
  simp [flatMap, Function.comp_def]

theorem tells_quoted (a b : String) : Tells (quoted a) (quoted b) (a = b) := by
  intro s t _ _ h
  rw [toList_quoted, toList_quoted] at h
  simp only [cons_append, append_assoc] at h
  obtain ⟨hab, hst⟩ := escapes_told (tail_eq_of_cons_eq h)
  exact ⟨String.toList_inj.1 hab, hst⟩

/-! ## 3. Forms -/

def following (as : List String) : List Char := as.flatMap fun a => ',' :: ' ' :: a.toList

theorem toList_intercalate_cons (a : String) (as : List String) :
    (", ".intercalate (a :: as)).toList = a.toList ++ following as := by
  induction as generalizing a with
  | nil => simp [following]
  | cons b bs ih =>
    rw [String.intercalate_cons_cons, String.toList_append, String.toList_append, ih]
    simp [following]

theorem ends_following (as : List String) (hc : isNumeric c = false) (s : List Char) :
    Ends (following as ++ c :: s) := by
  cases as with
  | nil => exact hc
  | cons a as => rfl

inductive TellAll : List String → List String → Prop → Prop
  | nil : TellAll [] [] True
  | cons {a b : String} {as bs : List String} {P Q : Prop} (h : Tells a b P)
    (hs : TellAll as bs Q) : TellAll (a :: as) (b :: bs) (P ∧ Q)

namespace TellAll

variable {as bs : List String}

theorem following (h : TellAll as bs P) (hc : isNumeric c = false)
    (heq : following as ++ c :: s = Notation.following bs ++ c :: t) : P ∧ s = t := by
  induction h with
  | nil => exact ⟨trivial, tail_eq_of_cons_eq heq⟩
  | cons h _ ih =>
    simp only [Notation.following, flatMap_cons, cons_append, append_assoc, cons.injEq, true_and] at heq
    obtain ⟨hp, heq⟩ := h _ _ (ends_following _ hc _) (ends_following _ hc _) heq
    obtain ⟨hq, hst⟩ := ih heq
    exact ⟨⟨hp, hq⟩, hst⟩

theorem bracketed (h : TellAll as bs P) (opening closing : String) {r : List Char}
    (hclosing : closing.toList = c :: r) (hc : isNumeric c = false) :
    Tells (opening ++ ", ".intercalate as ++ closing) (opening ++ ", ".intercalate bs ++ closing) P := by
  intro s t _ _ heq
  simp only [String.toList_append, append_assoc, append_cancel_left_eq, hclosing] at heq
  cases h with
  | nil => exact ⟨trivial, by simpa using heq⟩
  | cons h hs =>
    rw [toList_intercalate_cons, toList_intercalate_cons, append_assoc, append_assoc, cons_append,
      cons_append] at heq
    obtain ⟨hp, heq⟩ := h _ _ (ends_following _ hc _) (ends_following _ hc _) heq
    obtain ⟨hq, heq⟩ := hs.following hc heq
    exact ⟨⟨hp, hq⟩, append_cancel_left heq⟩

theorem made (h : TellAll as bs P) (name : String) :
    Tells (made name as) (Notation.made name bs) P :=
  h.bracketed (name ++ "(") ")" rfl rfl

end TellAll

theorem tells_paired {a' b' : String} (h : Tells a b P) (h' : Tells a' b' Q) :
    Tells (paired a a') (paired b b') (P ∧ Q) := by
  have hall : Tells _ _ (P ∧ Q) :=
    ((TellAll.cons h (.cons h' .nil)).bracketed "(" ")" rfl rfl).imp fun h => ⟨h.1, h.2.1⟩
  simpa [paired, String.append_assoc] using hall

theorem tells_key (key : String) (h : Tells a b P) :
    Tells (key ++ ": " ++ a) (key ++ ": " ++ b) P := by
  intro s t hs ht heq
  simp only [String.toList_append, append_assoc, append_cancel_left_eq] at heq
  exact h s t hs ht heq

inductive TellParts : List (String × String) → List (String × String) → Prop → Prop
  | nil : TellParts [] [] True
  | cons {a b : String} {fs gs : List (String × String)} {P Q : Prop} (key : String)
    (h : Tells a b P) (hs : TellParts fs gs Q) : TellParts ((key, a) :: fs) ((key, b) :: gs) (P ∧ Q)

theorem TellParts.parts {fs gs : List (String × String)} (h : TellParts fs gs P) (name : String) :
    Tells (parts name fs) (Notation.parts name gs) P := by
  have hall : TellAll (fs.map fun f => f.1 ++ ": " ++ f.2) (gs.map fun g => g.1 ++ ": " ++ g.2) P := by
    induction h with
    | nil => exact .nil
    | cons key h _ ih => exact .cons (tells_key key h) ih
  exact hall.bracketed (name ++ " \x7b ") " \x7d" rfl rfl

theorem starts_made (name : String) (as : List String) :
    Starts (name.toList ++ ['(']) (made name as) :=
  ⟨(", ".intercalate as).toList ++ [')'], by simp [made]⟩

theorem starts_parts (name : String) (fs : List (String × String)) :
    Starts (name.toList ++ [' ']) (parts name fs) :=
  ⟨_, by simp only [parts, String.toList_append, append_assoc]; rfl⟩

/-! ## 4. Lists -/

section Lists

variable {α : Type} {write : α → String} {xs ys : List α} {c : Char}

def Opens (c : Char) (a : String) : Prop := ∃ d r, a.toList = d :: r ∧ d ≠ c

theorem Starts.opens (h : Starts p a) (hp : ∃ d r, p = d :: r ∧ d ≠ c) : Opens c a := by
  obtain ⟨r, hr⟩ := h
  obtain ⟨d, p, rfl, hd⟩ := hp
  exact ⟨d, p ++ r, hr.symm, hd⟩

theorem eq_of_following (hc : isNumeric c = false) (hcomma : c ≠ ',')
    (h : ∀ x ∈ xs, ∀ y ∈ ys, Tells (write x) (write y) (x = y))
    (heq : following (xs.map write) ++ c :: s = following (ys.map write) ++ c :: t) :
    xs = ys ∧ s = t := by
  induction xs generalizing ys with
  | nil =>
    cases ys with
    | nil => exact ⟨rfl, tail_eq_of_cons_eq heq⟩
    | cons y ys => exact absurd (cons.inj heq).1 hcomma
  | cons x xs ih =>
    cases ys with
    | nil => exact absurd (cons.inj heq).1.symm hcomma
    | cons y ys =>
      simp only [following, map_cons, flatMap_cons, cons_append, append_assoc, cons.injEq,
        true_and] at heq
      obtain ⟨rfl, hrest⟩ := h x (mem_cons_self ..) y (mem_cons_self ..) _ _
        (ends_following _ hc _) (ends_following _ hc _) heq
      obtain ⟨rfl, hst⟩ := ih (fun x hx y hy => h x (mem_cons_of_mem _ hx) y (mem_cons_of_mem _ hy)) hrest
      exact ⟨rfl, hst⟩

theorem tells_items (opening : String) {closing : String} (hclosing : closing.toList = [c])
    (hc : isNumeric c = false) (hcomma : c ≠ ',') (hxs : ∀ x ∈ xs, Opens c (write x))
    (hys : ∀ y ∈ ys, Opens c (write y))
    (h : ∀ x ∈ xs, ∀ y ∈ ys, Tells (write x) (write y) (x = y)) :
    Tells (opening ++ ", ".intercalate (xs.map write) ++ closing)
      (opening ++ ", ".intercalate (ys.map write) ++ closing) (xs = ys) := by
  intro s t _ _ heq
  simp only [String.toList_append, append_assoc, append_cancel_left_eq, hclosing] at heq
  cases xs with
  | nil =>
    cases ys with
    | nil => exact ⟨rfl, by simpa using heq⟩
    | cons y ys =>
      obtain ⟨d, r, hd, hne⟩ := hys y (mem_cons_self ..)
      rw [map_cons, toList_intercalate_cons, hd] at heq
      exact absurd (cons.inj heq).1.symm hne
  | cons x xs =>
    cases ys with
    | nil =>
      obtain ⟨d, r, hd, hne⟩ := hxs x (mem_cons_self ..)
      rw [map_cons, toList_intercalate_cons, hd] at heq
      exact absurd (cons.inj heq).1 hne
    | cons y ys =>
      rw [map_cons, map_cons, toList_intercalate_cons, toList_intercalate_cons, append_assoc,
        append_assoc] at heq
      obtain ⟨rfl, hrest⟩ := h x (mem_cons_self ..) y (mem_cons_self ..) _ _
        (ends_following _ hc _) (ends_following _ hc _) heq
      obtain ⟨rfl, hst⟩ := eq_of_following hc hcomma
        (fun x hx y hy => h x (mem_cons_of_mem _ hx) y (mem_cons_of_mem _ hy)) hrest
      exact ⟨rfl, hst⟩

theorem tells_listed (write : α → String) (hxs : ∀ x ∈ xs, Opens ']' (write x)) (hys :
    ∀ y ∈ ys, Opens ']' (write y))
    (h : ∀ x ∈ xs, ∀ y ∈ ys, Tells (write x) (write y) (x = y)) :
    Tells (listed (xs.map write)) (listed (ys.map write)) (xs = ys) :=
  tells_items "[" rfl rfl (by decide) hxs hys h

end Lists

/-! ## 5. Numbers and types -/

theorem tells_nat (m n : Nat) : Tells (toString m) (toString n) (m = n) := by
  refine (tells_word (over_numeric_nat m) (over_numeric_nat n)).imp fun h => ?_
  rw [← natOfDigits_toDigits m, ← natOfDigits_toDigits n, ← toList_toString_nat, h, toList_toString_nat]

theorem tells_int (i j : Int) : Tells (toString i) (toString j) (i = j) := by
  refine (tells_word (over_numeric_int i) (over_numeric_int j)).imp fun h => ?_
  have hread := readExponent?_toString (e := i)
  rw [h, readExponent?_toString] at hread
  exact (Option.some.inj hread).symm

theorem tells_scalar (s s' : Scalar) : Tells s.tag s'.tag (s = s') := by
  have hover : ∀ s : Scalar, Over isNumeric s.tag := fun s => by cases s <;> exact .literal rfl
  refine (tells_word (hover s) (hover s')).imp ?_
  cases s <;> cases s' <;> decide

theorem tells_dim (d d' : Dim) : Tells (toString d.toNat) (toString d'.toNat) (d = d') := by
  refine (tells_nat _ _).imp ?_
  cases d <;> cases d' <;> decide

def literalHead : Literal → List Char
  | .i32 _ => "I32".toList ++ ['(']
  | .u32 _ => "U32".toList ++ ['(']
  | .f32 _ => "F32".toList ++ ['(']

theorem starts_ofLiteral (l : Literal) : Starts (literalHead l) (ofLiteral l) := by
  cases l <;> exact starts_made ..

theorem tells_ofLiteral {l l' : Literal} (h : l.IsNumber) (h' : l'.IsNumber) :
    Tells (ofLiteral l) (ofLiteral l') (l = l') := by
  have hother (hd : differ (literalHead l) (literalHead l') = true) : Tells (ofLiteral l) (ofLiteral l') (l = l') :=
    tells_apart (starts_ofLiteral l) (starts_ofLiteral l') hd
  cases l with
  | i32 v =>
    cases l' with
    | i32 v' => exact ((TellAll.cons (tells_int _ _) .nil).made _).imp fun h => congrArg _ (Int32.toInt_inj.1 h.1)
    | _ => exact hother rfl
  | u32 v =>
    cases l' with
    | u32 v' => exact ((TellAll.cons (tells_nat _ _) .nil).made _).imp fun h => congrArg _ (UInt32.toNat_inj.1 h.1)
    | _ => exact hother rfl
  | f32 v =>
    cases l' with
    | f32 v' =>
      have htext : Tells v.text v'.text (v = v') :=
        (tells_word (over_numeric_write _ _) (over_numeric_write _ _)).imp (text_injective h h')
      exact ((TellAll.cons htext .nil).made _).imp fun h => congrArg _ h.1
    | _ => exact hother rfl

theorem ofMembers_eq (ms : Members) :
    ofMembers ms = ms.toList.map fun m => paired (quoted m.1) (ofTy m.2) := by
  cases ms with
  | nil => rfl
  | cons name ty rest => rw [ofMembers, Members.toList, map_cons, ofMembers_eq rest]

def tyHead : Ty → List Char
  | .scalar _ => "Scalar".toList ++ ['(']
  | .vector .. => "Vector".toList ++ ['(']
  | .matrix .. => "Matrix".toList ++ ['(']
  | .struct _ => "Struct".toList ++ ['(']

theorem starts_ofTy (ty : Ty) : Starts (tyHead ty) (ofTy ty) := by
  cases ty <;> rw [ofTy] <;> exact starts_made ..

theorem opens_paired (a b : String) : Opens ']' (paired a b) :=
  ⟨'(', _, by simp only [paired, String.toList_append]; rfl, by decide⟩

mutual

theorem tells_ofTy (ty ty' : Ty) : Tells (ofTy ty) (ofTy ty') (ty = ty') := by
  have hother (hd : differ (tyHead ty) (tyHead ty') = true) : Tells (ofTy ty) (ofTy ty') (ty = ty') :=
    tells_apart (starts_ofTy ty) (starts_ofTy ty') hd
  match ty with
  | .scalar s =>
    cases ty' with
    | scalar s' =>
      exact ((TellAll.cons (tells_scalar s s') .nil).made _).imp fun h => congrArg _ h.1
    | _ => exact hother rfl
  | .vector s n =>
    cases ty' with
    | vector s' n' =>
      refine ((TellAll.cons (tells_scalar s s') (.cons (tells_dim n n') .nil)).made _).imp ?_
      rintro ⟨rfl, rfl, -⟩
      rfl
    | _ => exact hother rfl
  | .matrix r c =>
    cases ty' with
    | matrix r' c' =>
      have hprim : Tells "F32" "F32" True := (tells_word (.literal rfl) (.literal rfl)).imp fun _ => trivial
      refine ((TellAll.cons hprim (.cons (tells_dim r r') (.cons (tells_dim c c') .nil))).made _).imp ?_
      rintro ⟨-, rfl, rfl, -⟩
      rfl
    | _ => exact hother rfl
  | .struct ms =>
    cases ty' with
    | struct ms' =>
      rw [ofTy, ofTy, ofMembers_eq, ofMembers_eq]
      have hlisted := tells_listed _ (fun _ _ => opens_paired _ _) (fun _ _ => opens_paired _ _) (tells_members ms ms')
      refine ((TellAll.cons ((TellParts.cons "fields" hlisted .nil).parts "StructTy") .nil).made _).imp ?_
      rintro ⟨⟨h, -⟩, -⟩
      rw [← Members.ofList_toList ms, h, Members.ofList_toList]
    | _ => exact hother rfl

theorem tells_members (ms ms' : Members) : ∀ m ∈ ms.toList, ∀ m' ∈ ms'.toList,
    Tells (paired (quoted m.1) (ofTy m.2)) (paired (quoted m'.1) (ofTy m'.2)) (m = m') := by
  match ms with
  | .nil => nofun
  | .cons name ty rest =>
    intro m hm m' hm'
    rcases mem_cons.1 hm with rfl | hm
    · refine (tells_paired (tells_quoted _ _) (tells_ofTy ty m'.2)).imp ?_
      rintro ⟨h1, h2⟩
      exact Prod.ext h1 h2
    · exact tells_members rest ms' m hm m' hm'

end

/-! ## 6. Resources -/

theorem opens_nat (n : Nat) : Opens ']' (toString n) := by
  obtain ⟨c, r, hcr⟩ := exists_cons_of_ne_nil Nat.toDigits_ne_nil
  refine ⟨c, r, (toList_toString_nat n).trans hcr, ?_⟩
  rintro rfl
  exact absurd (isDigit_toDigits n ']' (by simp [hcr])) (by decide)

theorem tells_ofField (f f' : FieldInfo) : Tells (ofField f) (ofField f') (f = f') := by
  have hdigits : ∀ n : UInt64, Opens ']' (toString n.toNat) := fun n => opens_nat n.toNat
  have hshape : Tells _ _ (f.shape = f'.shape) := tells_listed (fun n : UInt64 => toString n.toNat)
    (fun n _ => hdigits n)
    (fun n _ => hdigits n) fun m _ n _ => (tells_nat m.toNat n.toNat).imp UInt64.toNat_inj.1
  have hid := (TellAll.cons (tells_nat f.id f'.id) .nil).made "FieldId"
  have hall := TellParts.cons "id" hid (.cons "name" (tells_quoted f.name f'.name)
    (.cons "shape" hshape (.cons "elem" (tells_ofTy f.elem f'.elem) .nil)))
  refine (hall.parts "FieldInfo").imp ?_
  cases f
  simp_all

theorem tells_ofFormat (x y : TexelFormat) : Tells (ofFormat x) (ofFormat y) (x = y) := by
  have hover : ∀ x : TexelFormat, Over isNumeric (ofFormat x) := fun x => by cases x <;> exact .literal rfl
  refine (tells_word (hover x) (hover y)).imp ?_
  cases x <;> cases y <;> decide

theorem tells_bool (x y : Bool) : Tells (toString x) (toString y) (x = y) := by
  have hover : ∀ x : Bool, Over isNumeric (toString x) := fun x => by cases x <;> exact .literal rfl
  refine (tells_word (hover x) (hover y)).imp ?_
  cases x <;> cases y <;> decide

theorem tells_ofTexture (t t' : TextureInfo) : Tells (ofTexture t) (ofTexture t') (t = t') := by
  have hdims : Tells _ _ (t.dims = t'.dims) :=
    tells_listed (fun n : Nat => toString n) (fun n _ => opens_nat n) (fun n _ => opens_nat n)
      fun m _ n _ => tells_nat m n
  have hid := (TellAll.cons (tells_nat t.id t'.id) .nil).made "TextureId"
  have hall := TellParts.cons "id" hid (.cons "name" (tells_quoted t.name t'.name) (.cons "dims" hdims
    (.cons "format" (tells_ofFormat t.format t'.format) (.cons "storage" (tells_bool t.storage t'.storage) .nil))))
  refine (hall.parts "TextureInfo").imp ?_
  cases t
  simp_all

/-! ## 7. Values -/

theorem isData_of_mem {r : Record} (h : r.IsData) : ∀ e ∈ r.toList, e.2.IsData := by
  match r with
  | .nil => nofun
  | .cons name v rest =>
    rw [Record.IsData] at h
    exact forall_mem_cons.2 ⟨h.1, isData_of_mem h.2⟩

theorem ofRecord_eq (r : Record) :
    ofRecord r = r.toList.map fun e => paired (quoted e.1) (ofValue e.2) := by
  match r with
  | .nil => rfl
  | .cons name v rest => rw [ofRecord, Record.toList, map_cons, ofRecord_eq rest]

theorem record_eq_of_toList {r r' : Record} (h : r.toList = r'.toList) : r = r' := by
  match r, r' with
  | .nil, .nil => rfl
  | .cons .., .nil | .nil, .cons .. => cases h
  | .cons name v rest, .cons name' v' rest' =>
    obtain ⟨heq, hrest⟩ := cons.inj h
    cases heq
    rw [record_eq_of_toList hrest]

def valueHead : Value → List Char
  | .number _ => "Number".toList ++ ['(']
  | .array .. => "NumberArray".toList ++ [' ']
  | .field _ => "Field".toList ++ ['(']
  | .texture _ => "Texture".toList ++ ['(']
  | .record _ => "Record".toList ++ ['(']
  | .function _ => "Function".toList ++ ['(']
  | .place _ => "Place".toList ++ ['(']
  | .bound .. => "Bound".toList ++ ['(']
  | .arg .. => "Arg".toList ++ [' ']

theorem starts_ofValue (v : Value) : Starts (valueHead v) (ofValue v) := by
  cases v <;> rw [ofValue] <;> first | exact starts_made .. | exact starts_parts ..

mutual

theorem tells_ofValue {v v' : Value} (h : v.IsData) (h' : v'.IsData) :
    Tells (ofValue v) (ofValue v') (v = v') := by
  have hother (hd : differ (valueHead v) (valueHead v') = true) : Tells (ofValue v) (ofValue v') (v = v') :=
    tells_apart (starts_ofValue v) (starts_ofValue v') hd
  match v with
  | .number l =>
    cases v' with
    | number l' =>
      exact ((TellAll.cons (tells_ofLiteral h h') .nil).made _).imp fun h => congrArg _ h.1
    | _ => exact hother rfl
  | .array ls ty =>
    cases v' with
    | array ls' ty' =>
      have hopens (l : Literal) : Opens ']' (ofLiteral l) := by
        cases l <;> exact (starts_ofLiteral _).opens ⟨_, _, rfl, by decide⟩
      have hvalues := tells_listed _ (fun l _ => hopens l) (fun l _ => hopens l) fun l hl l' hl' =>
        tells_ofLiteral (h l hl) (h' l' hl')
      refine ((TellParts.cons "values" hvalues (.cons "ty" (tells_ofTy ty ty') .nil)).parts _).imp ?_
      rintro ⟨rfl, rfl, -⟩
      rfl
    | _ => exact hother rfl
  | .field f =>
    cases v' with
    | field f' =>
      exact ((TellAll.cons (tells_ofField f f') .nil).made _).imp fun h => congrArg _ h.1
    | _ => exact hother rfl
  | .texture t =>
    cases v' with
    | texture t' =>
      exact ((TellAll.cons (tells_ofTexture t t') .nil).made _).imp fun h => congrArg _ h.1
    | _ => exact hother rfl
  | .record r =>
    cases v' with
    | record r' =>
      rw [ofValue, ofValue, ofRecord_eq, ofRecord_eq]
      have hentries := tells_listed _ (fun _ _ => opens_paired _ _) (fun _ _ => opens_paired _ _) (tells_entries h h')
      refine ((TellAll.cons ((TellParts.cons "entries" hentries .nil).parts "Record") .nil).made _).imp ?_
      rintro ⟨⟨heq, -⟩, -⟩
      rw [record_eq_of_toList heq]
    | _ => exact hother rfl

theorem tells_entries {r r' : Record} (h : r.IsData) (h' : r'.IsData) :
    ∀ e ∈ r.toList, ∀ e' ∈ r'.toList,
    Tells (paired (quoted e.1) (ofValue e.2)) (paired (quoted e'.1) (ofValue e'.2)) (e = e') := by
  match r with
  | .nil => nofun
  | .cons name v rest =>
    intro e he e' he'
    rcases mem_cons.1 he with rfl | he
    · refine (tells_paired (tells_quoted _ _) (tells_ofValue h.1 (isData_of_mem h' e' he'))).imp ?_
      rintro ⟨h1, h2⟩
      exact Prod.ext h1 h2
    · exact tells_entries h.2 h' e he e' he'

end

theorem ofBindings_injective {bs bs' : List (String × Value)} (h : ∀ e ∈ bs, e.2.IsData)
    (h' : ∀ e ∈ bs', e.2.IsData) (heq : ofBindings bs = ofBindings bs') : bs = bs' := by
  have hopens (e : String × Value) : Opens '\x7d' (quoted e.1 ++ ": " ++ ofValue e.2) :=
    ⟨'"', _, by simp only [String.toList_append, toList_quoted]; rfl, by decide⟩
  have hentry : ∀ e ∈ bs, ∀ e' ∈ bs',
      Tells (quoted e.1 ++ ": " ++ ofValue e.2) (quoted e'.1 ++ ": " ++ ofValue e'.2) (e = e') := by
    intro e he e' he' s t hs ht htext
    simp only [String.toList_append, append_assoc] at htext
    obtain ⟨hname, htext⟩ := tells_quoted e.1 e'.1 _ _ (by exact rfl) (by exact rfl) htext
    obtain ⟨hvalue, hst⟩ := tells_ofValue (h e he) (h' e' he') s t hs ht (append_cancel_left htext)
    exact ⟨Prod.ext hname hvalue, hst⟩
  exact (tells_items "\x7b" rfl rfl (by decide) (fun e _ => hopens e) (fun e _ => hopens e) hentry).of_eq heq

end ArrayKernel.Notation
