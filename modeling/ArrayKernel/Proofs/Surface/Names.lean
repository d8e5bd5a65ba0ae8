import ArrayKernel.Proofs.Text.Characters
import ArrayKernel.Surface.Token

/-!
# Names in kernel texts

The scanner gives identifiers only over the characters of identifiers, and no keyword as an
identifier.
-/

namespace ArrayKernel.Surface

open Text

variable {cs : List Char} {l : Lexeme} {c : Char}

def Lexeme.Spelled : Lexeme → Prop
  | .identifier n => Over isIdentifierPart n ∧ Keyword.ofSpelling? n = none
  | _ => True

theorem isIdentifierPart_of_start (h : isIdentifierStart c) : isIdentifierPart c := by
  simp only [isIdentifierStart, isIdentifierPart, Char.isAlphanum, Bool.or_eq_true] at h ⊢
  exact h.imp_left (.imp_left .inl)

theorem spelled_ofWord {word : List Char} (h : ∀ c ∈ word, isIdentifierPart c) :
    (Lexeme.ofWord (String.ofList word)).Spelled := by
  unfold Lexeme.ofWord
  split
  · trivial
  · exact ⟨.ofList h, ‹_›⟩

theorem spelled_readDecimal (h : (readDecimal cs).result = .ok l) : l.Spelled := by
  unfold readDecimal at h
  grind [Lexeme.Spelled]

theorem spelled_readNumber (h : (readNumber cs).result = .ok l) : l.Spelled := by
  unfold readNumber at h
  grind [Lexeme.Spelled, spelled_readDecimal]

theorem spelled_lead {rest : List Char} (h : (lead c rest).word = some l) : l.Spelled := by
  unfold lead at h
  split at h
  · cases h
  split at h
  · cases h
  split at h
  · split at h <;> cases h
  split at h
  · next hstart =>
    cases h
    refine spelled_ofWord fun d hd => ?_
    rcases List.mem_cons.1 hd with rfl | hd
    · exact isIdentifierPart_of_start hstart
    · exact List.all_eq_true.1 List.all_takeWhile d hd
  split at h
  · dsimp only at h
    split at h
    · next hread =>
      cases h
      exact spelled_readNumber hread
    · cases h
      trivial
  split at h
  · cases h
    trivial
  · split at h <;> cases h

theorem spelled_scanFrom {file pos : Nat} :
    ∀ token ∈ (scanFrom file pos cs).tokens, token.lexeme.Spelled := by
  fun_induction scanFrom file pos cs with
  | case1 => exact nofun
  | case2 pos c rest l width tail ih =>
    intro token ht
    rcases List.mem_append.1 ht with ht | ht
    · obtain ⟨w, hw, rfl⟩ := Option.map_eq_some_iff.1 (Option.mem_toList.1 ht)
      exact spelled_lead hw
    · exact ih token ht

end ArrayKernel.Surface
