import ArrayKernel.Number.LittleEndian

/-!
# Words and their bytes

The bytes of words, cut into pieces of four, give the words back.
-/

namespace ArrayKernel.Number

open List

theorem shiftRight_shiftLeft_or (x : UInt32) : ((x >>> 8) <<< 8) ||| x.toUInt8.toUInt32 = x := by
  apply UInt32.toNat.inj
  have hx := x.toNat_lt
  have hlow : x.toNat % 256 < 2 ^ 8 := Nat.mod_lt _ (by decide)
  have hhigh : x.toNat >>> 8 <<< 8 = x.toNat / 256 * 256 := by rw [Nat.shiftRight_eq_div_pow, Nat.shiftLeft_eq]
  have hshift : ((x >>> 8) <<< 8).toNat = x.toNat >>> 8 <<< 8 := by
    show x.toNat >>> 8 <<< 8 % 2 ^ 32 = _
    rw [Nat.mod_eq_of_lt (by omega)]
  rw [UInt32.toNat_or, hshift, UInt8.toNat_toUInt32, UInt32.toNat_toUInt8]
  rw [← Nat.shiftLeft_add_eq_or_of_lt hlow, hhigh]
  omega

theorem wordOfBytes_wordBytes (w : UInt32) : wordOfBytes (wordBytes w) = w := by
  have hshift : ∀ a b c : UInt32, c.toNat = a.toNat + b.toNat → c.toNat < 32 → (w >>> a) >>> b = w >>> c := by
    intro a b c hadd hlt
    apply UInt32.toNat.inj
    simp only [UInt32.toNat_shiftRight]
    rw [Nat.mod_eq_of_lt (by omega), Nat.mod_eq_of_lt (by omega), Nat.mod_eq_of_lt hlt, hadd, Nat.shiftRight_add]
  have hzero : (w >>> 24) >>> 8 = 0 := by
    apply UInt32.toNat.inj
    have hw := w.toNat_lt
    show w.toNat >>> 24 >>> 8 = 0
    omega
  -- from the highest byte down, each step puts one more byte below those so far
  have h3 := shiftRight_shiftLeft_or (w >>> 24)
  have h2 := shiftRight_shiftLeft_or (w >>> 16)
  have h1 := shiftRight_shiftLeft_or (w >>> 8)
  have h0 := shiftRight_shiftLeft_or w
  rw [hzero] at h3
  rw [hshift 16 8 24 rfl (by decide)] at h2
  rw [hshift 8 8 16 rfl (by decide)] at h1
  simp only [wordBytes, wordOfBytes, foldr_cons, foldr_nil]
  rw [h3, h2, h1, h0]

variable {ws : List UInt32} {n : Nat}

theorem size_bytesOfWords : (bytesOfWords ws).size = 4 * ws.length := by
  induction ws with
  | nil => rfl
  | cons w ws ih =>
    simp only [bytesOfWords, size_toArray, flatMap_cons, length_append] at ih ⊢
    simp only [wordBytes, length_cons, length_nil]
    omega

theorem cut_append {piece : List UInt8} (h : 0 < piece.length) (rest : List UInt8) :
    cut piece.length (piece ++ rest).toArray = piece :: cut piece.length rest.toArray := by
  have hsize : (piece ++ rest).toArray.size / piece.length = rest.toArray.size / piece.length + 1 := by
    rw [size_toArray, length_append, size_toArray, Nat.add_div_left _ h]
  rw [cut, hsize, range_succ_eq_map, map_cons, map_map]
  refine cons_eq_cons.2 ⟨?_, map_congr_left fun i _ => ?_⟩
  · simp
  · simp only [Function.comp_apply, Array.toList_extract, extract_eq_take_drop]
    rw [Nat.succ_mul, Nat.add_comm (i * _), drop_append, drop_of_length_le (Nat.le_add_right _ _)]
    simp

theorem cut_bytesOfWords : cut 4 (bytesOfWords ws) = ws.map wordBytes := by
  induction ws with
  | nil => rfl
  | cons w ws ih =>
    have hpos : 0 < (wordBytes w).length := Nat.zero_lt_succ _
    have h := cut_append hpos (ws.flatMap wordBytes)
    rw [bytesOfWords, flatMap_cons, map_cons, ← ih]
    exact h

@[simp] theorem wordsOfBytes_bytesOfWords : wordsOfBytes (bytesOfWords ws) = ws := by
  rw [wordsOfBytes, cut_bytesOfWords, map_map]
  exact (map_congr_left fun w _ => wordOfBytes_wordBytes w).trans (map_id ws)

theorem bytesOfWords_replicate_zero :
    bytesOfWords (List.replicate n 0) = Array.replicate (4 * n) 0 := by
  have hbytes : (List.replicate n (0 : UInt32)).flatMap wordBytes = List.replicate (4 * n) 0 := by
    induction n with
    | zero => rfl
    | succ n ih =>
      rw [replicate_succ, flatMap_cons, ih, Nat.mul_succ, Nat.add_comm, ← replicate_append_replicate]
      rfl
  rw [bytesOfWords, hbytes, toArray_replicate]

theorem wordsOfBytes_replicate_zero :
    wordsOfBytes (Array.replicate (4 * n) 0) = List.replicate n 0 := by
  rw [← bytesOfWords_replicate_zero, wordsOfBytes_bytesOfWords]

end ArrayKernel.Number
