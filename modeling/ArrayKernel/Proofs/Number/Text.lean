import ArrayKernel.Proofs.Number.Shortest

/-!
# The text of a number

The text of a single-precision number is read back as a decimal that rounds to the number, in
positional and in scientific notation: `read?_text`. So no two numbers have the same text, unless
one is no number.
-/

namespace ArrayKernel.Number

open Text List

variable {fraction whole : List Char} {x y : Binary32}

/-! ## 1. Digits that are read -/

theorem natOfDigits_append (b : Nat) (xs ys : List Char) :
    natOfDigits b (xs ++ ys) = natOfDigits b xs * b ^ ys.length + natOfDigits b ys := by
  have hfrom : ∀ n, ys.foldl (fun n c => n * b + (hexDigit? c).getD 0) n
      = n * b ^ ys.length + ys.foldl (fun n c => n * b + (hexDigit? c).getD 0) 0 := by
    induction ys with
    | nil => simp
    | cons c ys ih =>
      intro n
      rw [foldl_cons, foldl_cons, ih, ih (0 * b + _), length_cons]
      ring
  unfold natOfDigits
  rw [foldl_append, hfrom]

theorem natOfDigits_replicate_zero (k : Nat) : natOfDigits 10 (List.replicate k '0') = 0 := by
  induction k with
  | zero => rfl
  | succ k ih =>
    rw [replicate_succ', natOfDigits_append, ih]
    rfl

def AllDigits (cs : List Char) : Prop := ∀ c ∈ cs, c.isDigit = true

theorem takeWhile_digits {ds : List Char} (hds : AllDigits ds) (rest : List Char)
    (hrest : ∀ c ∈ rest.head?, c.isDigit = false) :
    (ds ++ rest).takeWhile Char.isDigit = ds ∧ (ds ++ rest).dropWhile Char.isDigit = rest := by
  rw [takeWhile_append_of_pos hds, dropWhile_append_of_pos hds]
  cases rest with
  | nil => simp
  | cons c rest =>
    have := hrest c rfl
    simp [this]

theorem allDigits_toDigits (n : Nat) : AllDigits (Nat.toDigits 10 n) := fun _ hc =>
  Nat.isDigit_of_mem_toDigits (by decide) (by decide) hc

theorem readDigits?_toDigits {n : Nat} : readDigits? (Nat.toDigits 10 n) = some n := by
  have hall : (Nat.toDigits 10 n).all Char.isDigit = true := all_eq_true.2 (allDigits_toDigits n)
  simp [readDigits?, hall, natOfDigits_toDigits]

theorem readExponent?_toString {e : Int} : readExponent? (toString e).toList = some e := by
  cases e with
  | ofNat n =>
    have htext : (toString (Int.ofNat n)).toList = Nat.toDigits 10 n := toList_toString_nat n
    have hhead : ∀ c ∈ (Nat.toDigits 10 n), c ≠ '-' ∧ c ≠ '+' := by
      intro c hc
      constructor <;> (rintro rfl; exact absurd (allDigits_toDigits n _ hc) (by decide))
    rw [htext]
    unfold readExponent?
    split
    · rename_i h
      exact absurd rfl (hhead '-' (by simp [h])).1
    · rename_i h
      exact absurd rfl (hhead '+' (by simp [h])).2
    · rw [readDigits?_toDigits]
      rfl
  | negSucc n =>
    have htext : (toString (Int.negSucc n)).toList = '-' :: Nat.toDigits 10 (n + 1) := by
      show ("-" ++ toString (n + 1)).toList = _
      rw [String.toList_append, toList_toString_nat]
      rfl
    rw [htext]
    show (readDigits? (Nat.toDigits 10 (n + 1))).map (fun n => -(n : Int)) = _
    rw [readDigits?_toDigits]
    rfl

theorem readUnsigned?_point (negative : Bool) (hwhole : AllDigits whole) (hne : whole ≠ [])
    (hfraction : AllDigits fraction) : readUnsigned? negative (whole ++ '.' :: fraction)
      = some (.finite negative (natOfDigits 10 (whole ++ fraction)) (-fraction.length)) := by
  obtain ⟨htake, hdrop⟩ := takeWhile_digits hwhole ('.' :: fraction) (by simp)
  obtain ⟨htake', hdrop'⟩ := takeWhile_digits hfraction [] (by simp)
  rw [append_nil] at htake' hdrop'
  unfold readUnsigned?
  simp only [htake, hdrop, htake', hdrop']
  rw [if_neg (by simp [hne])]

theorem readUnsigned?_point_mark (negative : Bool) (hwhole : AllDigits whole) (hne : whole ≠ [])
    (hfraction : AllDigits fraction) (x : Int) :
    readUnsigned? negative (whole ++ '.' :: (fraction ++ 'e' :: (toString x).toList))
      = some (.finite negative (natOfDigits 10 (whole ++ fraction)) (x - fraction.length)) := by
  obtain ⟨htake, hdrop⟩ := takeWhile_digits hwhole ('.' :: (fraction ++ 'e' :: (toString x).toList)) (by simp)
  obtain ⟨htake', hdrop'⟩ := takeWhile_digits hfraction ('e' :: (toString x).toList) (by simp)
  unfold readUnsigned?
  simp only [htake, hdrop, htake', hdrop']
  rw [if_neg (by simp [hne]), if_pos (by simp), readExponent?_toString]
  rfl

theorem readUnsigned?_mark (negative : Bool) (hwhole : AllDigits whole) (hne : whole ≠ [])
    (x : Int) :
    readUnsigned? negative (whole ++ 'e' :: (toString x).toList)
      = some (.finite negative (natOfDigits 10 whole) x) := by
  obtain ⟨htake, hdrop⟩ := takeWhile_digits hwhole ('e' :: (toString x).toList) (by simp)
  unfold readUnsigned?
  simp only [htake, hdrop]
  rw [if_neg (by simp [hne])]
  show (if 'e' = 'e' || 'e' = 'E' then (readExponent? (toString x).toList).map fun y =>
    Decimal.finite negative (natOfDigits 10 (whole ++ [])) (y - ([] : List Char).length) else none) = _
  rw [if_pos (by simp), readExponent?_toString, append_nil]
  simp

/-! ## 2. Layouts -/

def Reads (negative : Bool) (x : ℚ) (cs : List Char) : Prop :=
  (∃ c r, cs = c :: r ∧ c.isDigit = true)
    ∧ ∃ n e, readUnsigned? negative cs = some (.finite negative n e) ∧ 0 < n ∧ (n : ℚ) * 10 ^ e = x

theorem starts_digit (hwhole : AllDigits whole) (hne : whole ≠ []) {rest : List Char} :
    ∃ c r, whole ++ rest = c :: r ∧ c.isDigit = true := by
  obtain ⟨c, r, rfl⟩ := exists_cons_of_ne_nil hne
  exact ⟨c, r ++ rest, rfl, hwhole c (mem_cons_self ..)⟩

variable {d : Nat} {e : Int}

theorem reads_positional (negative : Bool) (hd : 0 < d) :
    Reads negative (Digits.value ⟨d, e⟩) (Layout.standard.positional (toString d) e).toList := by
  have hdigits := allDigits_toDigits d
  have hlength : (toString d).length = (Nat.toDigits 10 d).length := by rw [← String.length_toList, toList_toString_nat]
  have hzeros (k : Nat) : AllDigits (List.replicate k '0') := by
    intro c hc
    rw [eq_of_mem_replicate hc]
    rfl
  unfold Layout.positional Digits.value
  dsimp only
  split
  · -- zeros between the point and the digits
    let fraction := List.replicate (-e - 1).toNat '0' ++ Nat.toDigits 10 d
    have htext : ("0." ++ String.ofList (List.replicate (-e - 1).toNat '0') ++ toString d).toList
        = ['0'] ++ '.' :: fraction := by
      simp [fraction]
    have hwhole : AllDigits ['0'] := by simp [AllDigits]
    have hfraction : AllDigits fraction := fun c hc => (mem_append.1 hc).elim (hzeros _ c) (hdigits c)
    have hread := readUnsigned?_point negative hwhole (by simp) hfraction
    have hvalue : natOfDigits 10 (['0'] ++ fraction) = d := by
      rw [natOfDigits_append, natOfDigits_append, natOfDigits_replicate_zero, natOfDigits_toDigits]
      simp [natOfDigits, hexDigit?]
    rw [hvalue] at hread
    rw [htext]
    refine ⟨starts_digit hwhole (by simp), _, _, hread, hd, ?_⟩
    congr 2
    simp only [fraction, length_append, length_replicate]
    omega
  · rw [hlength]
    split
    · -- zeros up to the point, and one after it
      let zeros := List.replicate (e.toNat + 1 - (Nat.toDigits 10 d).length) '0'
      have htext : (toString d ++ String.ofList zeros ++ Layout.standard.wholeSuffix).toList
          = (Nat.toDigits 10 d ++ zeros) ++ '.' :: ['0'] := by
        simp [Layout.standard]
      have hwhole : AllDigits (Nat.toDigits 10 d ++ zeros) :=
        fun c hc => (mem_append.1 hc).elim (hdigits c) (hzeros _ c)
      have hne : Nat.toDigits 10 d ++ zeros ≠ [] := by simp [Nat.toDigits_ne_nil]
      have hzero : AllDigits ['0'] := by simp [AllDigits]
      have hread := readUnsigned?_point negative hwhole hne hzero
      have hvalue : natOfDigits 10 (Nat.toDigits 10 d ++ zeros ++ ['0']) = d * 10 ^ zeros.length * 10 := by
        rw [natOfDigits_append, natOfDigits_append, natOfDigits_replicate_zero, natOfDigits_toDigits]
        rfl
      rw [hvalue] at hread
      rw [htext]
      refine ⟨starts_digit hwhole hne, _, _, hread, by positivity, ?_⟩
      rw [show e + 1 - ((Nat.toDigits 10 d).length : Int) = zeros.length by simp only [zeros, length_replicate]; omega]
      simp
    · -- digits on both sides of the point
      let whole := (Nat.toDigits 10 d).take (e.toNat + 1)
      let fraction := (Nat.toDigits 10 d).drop (e.toNat + 1)
      have htext : (String.ofList ((toString d).toList.take (e.toNat + 1)) ++ "."
          ++ String.ofList ((toString d).toList.drop (e.toNat + 1))).toList = whole ++ '.' :: fraction := by
        simp [whole, fraction]
      have hwhole : AllDigits whole := fun c hc => hdigits c (mem_of_mem_take hc)
      have hne : whole ≠ [] := by simp [whole]
      have hfraction : AllDigits fraction := fun c hc => hdigits c (mem_of_mem_drop hc)
      have hread := readUnsigned?_point negative hwhole hne hfraction
      rw [take_append_drop, natOfDigits_toDigits] at hread
      rw [htext]
      refine ⟨starts_digit hwhole hne, _, _, hread, hd, ?_⟩
      have hexp : -(fraction.length : Int) = e + 1 - (Nat.toDigits 10 d).length := by
        rw [length_drop]
        omega
      rw [hexp]

theorem reads_scientific (negative : Bool) (hd : 0 < d) :
    Reads negative (Digits.value ⟨d, e⟩) (Layout.scientific (toString d) e).toList := by
  have hdigits := allDigits_toDigits d
  have hne : Nat.toDigits 10 d ≠ [] := Nat.toDigits_ne_nil
  unfold Layout.scientific Digits.value
  rw [toList_toString_nat]
  split
  · rename_i c c' rest heq
    rw [heq] at hdigits
    have htext : (.ofList (c :: '.' :: c' :: rest) ++ "e" ++ toString e).toList
        = [c] ++ '.' :: (c' :: rest ++ 'e' :: (toString e).toList) := by simp
    have hwhole : AllDigits [c] := fun x hx => hdigits x (by simp_all)
    have hfraction : AllDigits (c' :: rest) := fun x hx => hdigits x (mem_cons_of_mem _ hx)
    have hread := readUnsigned?_point_mark negative hwhole (by simp) hfraction e
    rw [show [c] ++ c' :: rest = Nat.toDigits 10 d from heq.symm, natOfDigits_toDigits] at hread
    rw [htext]
    refine ⟨starts_digit hwhole (by simp), _, _, hread, hd, ?_⟩
    dsimp only
    rw [heq, length_cons (a := c)]
    congr 2
    omega
  · rename_i hone
    have hlength : (Nat.toDigits 10 d).length = 1 := by
      match hds : Nat.toDigits 10 d with
      | [] => exact absurd hds hne
      | [c] => rfl
      | c :: c' :: rest => exact absurd hds (hone c c' rest)
    have htext : (toString d ++ "e" ++ toString e).toList = Nat.toDigits 10 d ++ 'e' :: (toString e).toList := by simp
    have hread := readUnsigned?_mark negative hdigits hne e
    rw [natOfDigits_toDigits] at hread
    rw [htext]
    refine ⟨starts_digit hdigits hne, _, _, hread, hd, ?_⟩
    dsimp only
    congr 2
    omega

/-! ## 3. Bits and values -/

theorem datum_eq : x.datum =
    let negative := decide (2147483648 ≤ x.bits.toNat)
    let magnitude := x.bits.toNat % 2147483648
    if 2139095040 < magnitude then .nan
    else if magnitude = 2139095040 then .infinite negative
    else if magnitude < 8388608 then .finite negative magnitude (-149)
    else .finite negative (8388608 + magnitude % 8388608) (-150 + (magnitude / 8388608 : Nat)) := by
  unfold Binary32.datum Format.decode
  simp only [Format.binary32, Format.signWeight, Format.infinity, Format.leastScale]
  norm_num
  split
  · rfl
  · split
    · rfl
    · split
      · congr 1
        omega
      · congr 1
        omega

theorem datum_finite {negative : Bool} {m : Nat} {q : Int} (h : x.datum = .finite negative m q) :
    m = 0 ∧ q = -149 ∨ Format.binary32.IsMagnitude m q ∧ q ≤ 104 := by
  rw [datum_eq] at h
  dsimp only at h
  split at h
  · cases h
  · split at h
    · cases h
    · split at h
      · rename_i hlt
        cases h
        rcases eq_zero_or_pos (x.bits.toNat % 2147483648) with hzero | hpos
        · exact .inl ⟨hzero, rfl⟩
        · exact .inr ⟨⟨hpos, hlt.trans (by decide), by decide, fun hless => absurd hless (by decide)⟩, by decide⟩
      · cases h
        have hleast : Format.binary32.leastScale = -149 := by decide
        refine .inr ⟨⟨by omega, ?_, ?_, fun _ => ?_⟩, ?_⟩
        · show 8388608 + _ < 16777216
          omega
        · rw [hleast]
          omega
        · show 8388608 ≤ _
          omega
        · omega

/-- The bits of a single-precision number: a full significand for each step of the scale, below the
sign. -/
def Datum.pattern : Datum → Nat
  | .nan => 0
  | .infinite negative => Format.binary32.signed negative Format.binary32.infinity
  | .finite negative m q => Format.binary32.signed negative (m + (q + 149).toNat * 8388608)

theorem toNat_bits (hx : x.isNaN = false) : x.bits.toNat = x.datum.pattern := by
  have hlt := x.bits.toNat_lt
  have hsigned (magnitude : Nat) (h : x.bits.toNat % 2147483648 = magnitude) :
      x.bits.toNat = Format.binary32.signed (decide (2147483648 ≤ x.bits.toNat)) magnitude := by
    show _ = if decide (2147483648 ≤ x.bits.toNat) = true then 2147483648 + magnitude else magnitude
    split
    · rename_i hneg
      rw [decide_eq_true_eq] at hneg
      omega
    · rename_i hneg
      rw [decide_eq_true_eq] at hneg
      omega
  unfold Binary32.isNaN at hx
  rw [datum_eq] at hx ⊢
  dsimp only at hx ⊢
  split
  · rename_i hnan
    rw [if_pos hnan] at hx
    cases hx
  · split
    · exact hsigned _ ‹_›
    · split
      · exact hsigned _ (by omega)
      · exact hsigned _ (by omega)

theorem eq_of_datum_eq (hx : x.isNaN = false) (hy : y.isNaN = false) (h : x.datum = y.datum) :
    x = y := by
  have hbits : x.bits.toNat = y.bits.toNat := by rw [toNat_bits hx, h, ← toNat_bits hy]
  exact congrArg Binary32.mk (UInt32.toNat.inj hbits)

/-! ## 4. Texts of numbers -/

/-- What the text of a number is read as: the number itself, or a decimal that rounds to it. -/
def ReadsAs : Datum → Decimal → Prop
  | .infinite negative, .infinite negative' => negative = negative'
  | .finite negative m q, .finite negative' n e =>
    negative = negative' ∧ (m = 0 ∧ n = 0 ∨ 0 < m ∧ 0 < n ∧ (Format.binary32.rounds m q).Holds (n * 10 ^ e))
  | _, _ => False

theorem toLower_digit {c : Char} (hc : c.isDigit = true) : c.toLower = c := by
  simp only [Char.isDigit, Bool.and_eq_true, decide_eq_true_eq] at hc
  unfold Char.toLower
  rw [dif_neg]
  rintro ⟨hge, -⟩
  exact absurd (UInt32.le_trans hge hc.2) (by decide)

theorem read?_signed (negative : Bool) {cs : List Char}
    (hcs : ∃ c r, cs = c :: r ∧ c.isDigit = true) :
    Decimal.read? ((if negative then "-" else "").toList ++ cs) = readUnsigned? negative cs := by
  obtain ⟨c, r, rfl, hc⟩ := hcs
  have hword (w : String) (hw : w.toList.head?.all (fun a => !a.isDigit) = true) : (String.ofList
      (c :: r)).toLower ≠ w := by
    rintro rfl
    change ((String.ofList (c :: r)).map Char.toLower).toList.head?.all _ = true at hw
    rw [String.toList_map, String.toList_ofList, map_cons, toLower_digit hc] at hw
    simp [hc] at hw
  have hbody (negative : Bool) :
      (let word := (String.ofList (c :: r)).toLower
        if word = "inf" || word = "infinity" then some (.infinite negative)
        else if word = "nan" then some (.nan negative)
        else readUnsigned? negative (c :: r)) = readUnsigned? negative (c :: r) := by
    rw [if_neg, if_neg (hword "nan" (by decide))]
    rw [Bool.or_eq_true, decide_eq_true_eq, decide_eq_true_eq]
    exact fun h => h.elim (hword "inf" (by decide)) (hword "infinity" (by decide))
  cases negative with
  | true => exact hbody true
  | false =>
    rw [← hbody false]
    show Decimal.read? (c :: r) = _
    unfold Decimal.read?
    split
    rename_i heq
    split at heq
    · rename_i h
      cases h
      exact absurd hc (by decide)
    · rename_i h
      cases h
      exact absurd hc (by decide)
    · cases heq
      rfl

theorem read?_text (hx : x.isNaN = false) :
    ∃ d, Decimal.read? x.text.toList = some d ∧ ReadsAs x.datum d := by
  unfold Binary32.isNaN at hx
  unfold Binary32.text
  cases hd : x.datum with
  | nan =>
    rw [hd] at hx
    cases hx
  | infinite negative =>
    refine ⟨.infinite negative, ?_, rfl⟩
    cases negative <;> decide +kernel
  | finite negative m q =>
    unfold Layout.write
    dsimp only
    split
    · rename_i hzero
      refine ⟨.finite negative 0 (-1), ?_, rfl, .inl ⟨hzero, rfl⟩⟩
      cases negative <;> decide +kernel
    · rename_i hm
      obtain ⟨hmag, hq⟩ := (datum_finite hd).resolve_left fun h => hm h.1
      obtain ⟨hdigits, hholds⟩ := Format.holds_shortest hmag hq
      generalize Format.binary32.shortest m q = d at hdigits hholds
      have hreads : Reads negative d.value
          (if Layout.standard.leastPositional ≤ d.exponent && d.exponent ≤ Layout.standard.mostPositional then
            Layout.standard.positional (toString d.digits) d.exponent
          else Layout.scientific (toString d.digits) d.exponent).toList := by
        split
        · exact reads_positional negative hdigits
        · exact reads_scientific negative hdigits
      obtain ⟨hstart, n, e, hread, hn, hvalue⟩ := hreads
      rw [String.toList_append, read?_signed negative hstart]
      exact ⟨_, hread, rfl, .inr ⟨hmag.pos, hn, hvalue ▸ hholds⟩⟩

theorem datum_of_readsAs {d : Decimal} (hx : ReadsAs x.datum d) (hy : ReadsAs y.datum d) :
    x.datum = y.datum := by
  cases hxd : x.datum with
  | nan =>
    rw [hxd] at hx
    cases hx
  | infinite negative =>
    cases hyd : y.datum <;> cases d <;> simp_all [ReadsAs]
  | finite negative m q =>
    rw [hxd] at hx
    cases hyd : y.datum with
    | nan =>
      rw [hyd] at hy
      cases hy
    | infinite negative' =>
      cases d <;> simp_all [ReadsAs]
    | finite negative' m' q' =>
      rw [hyd] at hy
      cases d with
      | nan | infinite => cases hx
      | finite sign n e =>
        obtain ⟨rfl, hx⟩ := hx
        obtain ⟨rfl, hy⟩ := hy
        rcases hx with ⟨rfl, rfl⟩ | ⟨hm, hn, hx⟩
        · -- both are zeros, which have the least scale
          rcases hy with ⟨rfl, -⟩ | ⟨-, hn, -⟩
          · have hq := (datum_finite hxd).resolve_right fun h => absurd h.1.pos (by decide)
            have hq' := (datum_finite hyd).resolve_right fun h => absurd h.1.pos (by decide)
            rw [hq.2, hq'.2]
          · exact absurd hn (by decide)
        · rcases hy with ⟨-, rfl⟩ | ⟨hm', -, hy⟩
          · exact absurd hn (by decide)
          · have hmag := (datum_finite hxd).resolve_left fun h => hm.ne' h.1
            have hmag' := (datum_finite hyd).resolve_left fun h => hm'.ne' h.1
            obtain ⟨rfl, rfl⟩ := Format.eq_of_rounds hmag.1 hmag'.1 hx hy
            rfl

theorem text_injective (hx : x.isNaN = false) (hy : y.isNaN = false) (h : x.text = y.text) :
    x = y := by
  obtain ⟨d, hd, hxd⟩ := read?_text hx
  obtain ⟨d', hd', hyd⟩ := read?_text hy
  rw [← h, hd] at hd'
  cases hd'
  exact eq_of_datum_eq hx hy (datum_of_readsAs hxd hyd)

end ArrayKernel.Number
