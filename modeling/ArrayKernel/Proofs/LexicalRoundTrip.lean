import Mathlib.Data.List.Basic
import ArrayKernel.Proofs.Surface.Names

/-!
# Scanning what is spelled

Words that are spelled one after another, with blanks and comments between them, are scanned as
those words (`scan_spelled`).
-/

namespace ArrayKernel.Surface

open Text List Option

variable {body gap w : List Char} {s : Symbol} {l : Lexeme} {n : Nat}

/-! ## 1. Spellings and layout -/

/-- The spellings of a word: digits may be grouped by underscores, and a number may be hexadecimal.
-/
inductive Spelling : Lexeme → List Char → Prop where
  | keyword (k : Keyword) : Spelling (.keyword k) k.spelling.toList
  | symbol {s : Symbol} {w : List Char} (h : (w, s) ∈ Symbol.spellings) : Spelling (.symbol s) w
  | identifier {c : Char} {cs : List Char} (hc : isIdentifierStart c)
    (hcs : ∀ d ∈ cs, isIdentifierPart d) (hk : Keyword.ofSpelling? (String.ofList (c :: cs)) = none) :
    Spelling (.identifier (String.ofList (c :: cs))) (c :: cs)
  | decimal {c : Char} {cs : List Char} (hc : c.isDigit) (hcs : ∀ d ∈ cs, d.isDigit || d = '_') {n : Nat}
    (hn : n = natOfDigits 10 ((c :: cs).filter (· != '_'))) (hmax : n ≤ maxInteger) : Spelling (.integer n) (c :: cs)
  | hexadecimal {x : Char} {cs : List Char} (hx : x = 'x' ∨ x = 'X') (hcs : ∀ d ∈ cs, isHexDigit d)
      (hne : cs ≠ []) {n : Nat}
    (hn : n = natOfDigits 16 cs) (hmax : n ≤ maxInteger) : Spelling (.integer n) ('0' :: x :: cs)

/-- The words that can be spelled without a point or an exponent: keywords, symbols, numbers up to
the largest, and identifiers that are no keywords. -/
def Lexeme.Plain : Lexeme → Prop
  | .keyword _ | .symbol _ => True
  | .integer n => n ≤ maxInteger
  | .float _ => False
  | .identifier s =>
    (∃ c ∈ s.toList.head?, isIdentifierStart c) ∧ (∀ c ∈ s.toList.tail, isIdentifierPart c) ∧
      Keyword.ofSpelling? s = none

/-- Blanks, comments to the end of a line, and comments that are closed. -/
inductive Layout : List Char → Prop where
  | nil : Layout []
  | blank {c : Char} {rest : List Char} (hc : isAsciiSpace c) (h : Layout rest) : Layout (c :: rest)
  | line {body rest : List Char} (hbody : '\n' ∉ body) (h : Layout rest) : Layout ('/' :: '/' :: (body ++ '\n' :: rest))
  | block {body rest : List Char} (hbody : ¬['*', '/'] <:+: body) (h : Layout rest) :
    Layout ('/' :: '*' :: (body ++ '*' :: '/' :: rest))

/-- A text that no word goes on into: it is empty or starts with a blank. -/
def Apart (text : List Char) : Prop := ∀ c ∈ text.head?, isAsciiSpace c

instance (text : List Char) : Decidable (Apart text) :=
  decidable_of_iff (text.head?.all isAsciiSpace) (all_eq_true ..)

structure Piece where
  lexeme : Lexeme
  word : List Char
  gap : List Char
  spelled : Spelling lexeme word
  layout : Layout gap
  apart : Apart gap

def Separated (ps : List Piece) : Prop := ∀ p ∈ ps.dropLast, p.gap ≠ []

def textOf (ps : List Piece) : List Char := ps.flatMap fun p => p.word ++ p.gap

/-- The words of the pieces, each with the octets that it takes. -/
def tokensOf (file : Nat) : Nat → List Piece → List Token
  | _, [] => []
  | pos, p :: ps =>
    ⟨p.lexeme, ⟨file, pos, pos + p.word.length⟩⟩ :: tokensOf file (pos + p.word.length + p.gap.length) ps

theorem mem_spellings : (s.spelling.toList, s) ∈ Symbol.spellings := by
  cases s <;> decide

theorem spelling_toDigits (h : n ≤ maxInteger) : Spelling (.integer n) (Nat.toDigits 10 n) := by
  have hdigits : ∀ c ∈ Nat.toDigits 10 n, c.isDigit := fun c hc =>
    Nat.isDigit_of_mem_toDigits (by decide) (by decide) hc
  have hplain : (Nat.toDigits 10 n).filter (· != '_') = Nat.toDigits 10 n := by
    refine filter_eq_self.2 fun c hc => ?_
    have hc := hdigits c hc
    rw [bne_iff_ne]
    rintro rfl
    cases hc
  have hvalue : n = natOfDigits 10 ((Nat.toDigits 10 n).filter (· != '_')) := by rw [hplain, natOfDigits_toDigits]
  obtain ⟨c, cs, heq⟩ := exists_cons_of_ne_nil Nat.toDigits_ne_nil
  rw [heq] at hdigits hvalue ⊢
  refine .decimal (hdigits c (mem_cons_self ..)) (fun d hd => ?_) hvalue h
  rw [hdigits d (mem_cons_of_mem _ hd)]
  rfl

theorem exists_spelling_iff (l : Lexeme) : (∃ w, Spelling l w) ↔ l.Plain := by
  constructor
  · rintro ⟨w, h⟩
    cases h with
    | keyword | symbol => trivial
    | identifier hc hcs hk => exact ⟨⟨_, by rw [String.toList_ofList]; rfl, hc⟩, by rwa [String.toList_ofList], hk⟩
    | decimal _ _ _ hmax | hexadecimal _ _ _ _ hmax => exact hmax
  · intro h
    cases l with
    | keyword k => exact ⟨_, .keyword k⟩
    | symbol s => exact ⟨_, .symbol mem_spellings⟩
    | integer n => exact ⟨_, spelling_toDigits h⟩
    | float => cases h
    | identifier s =>
      obtain ⟨⟨c, hhead, hc⟩, hcs, hk⟩ := h
      obtain ⟨cs, heq⟩ := head?_eq_some_iff.1 hhead
      obtain rfl : String.ofList (c :: cs) = s := by rw [← heq, String.ofList_toList]
      rw [heq] at hcs
      exact ⟨c :: cs, .identifier hc hcs hk⟩

/-! ## 2. Steps of the scanner -/

variable {file pos : Nat} {c : Char} {cs rest : List Char} {p : Char → Bool}

theorem scanFrom_of_lead {w : Option Lexeme}
    (h : lead c (cs ++ rest) = { width := cs.length + 1, word := w }) :
    scanFrom file pos (c :: (cs ++ rest)) =
      { scanFrom file (pos + (cs.length + 1)) rest with
        tokens := (w.map fun l => ⟨l, ⟨file, pos, pos + (cs.length + 1)⟩⟩).toList ++
          (scanFrom file (pos + (cs.length + 1)) rest).tokens } := by
  have hwidth : max 1 (cs.length + 1) = cs.length + 1 := by omega
  rw [scanFrom]
  simp only [h, hwidth, Nat.add_sub_cancel, drop_left, map_none, toList_none, nil_append]

theorem takeWhile_blank (hp : ∀ c, isAsciiSpace c → p c = false) (hcs : ∀ d ∈ cs, p d)
    (h : Apart rest) : (cs ++ rest).takeWhile p = cs := by
  have hstop : rest.takeWhile p = [] := by
    cases rest with
    | nil => rfl
    | cons d rest => simp [hp d (h d rfl)]
  rw [takeWhile_append_of_pos hcs, hstop, append_nil]

/-! ## 3. Layout is passed over -/

theorem scanFrom_blanks (hc : isAsciiSpace c) (hcs : ∀ d ∈ cs, isAsciiSpace d)
    (hrest : rest.takeWhile isAsciiSpace = []) :
    scanFrom file pos (c :: (cs ++ rest)) = scanFrom file (pos + (cs.length + 1)) rest := by
  have hlead : lead c (cs ++ rest) = { width := cs.length + 1, word := none } := by
    rw [lead, if_pos hc, takeWhile_append_of_pos hcs, hrest, append_nil, Nat.add_comm]
  rw [scanFrom_of_lead hlead]
  rfl

/-- Blanks are passed over one by one, though a step takes all that come. -/
theorem scanFrom_blank (hc : isAsciiSpace c) :
    scanFrom file pos (c :: rest) = scanFrom file (pos + 1) rest := by
  have hrest : rest = rest.takeWhile isAsciiSpace ++ rest.dropWhile isAsciiSpace := takeWhile_append_dropWhile.symm
  have hstop : (rest.dropWhile isAsciiSpace).takeWhile isAsciiSpace = [] := by
    cases hdrop : rest.dropWhile isAsciiSpace with
    | nil => rfl
    | cons d tail =>
      have hd : isAsciiSpace d = false := by
        simpa [hdrop] using head_dropWhile_not isAsciiSpace (l := rest) (by simp [hdrop])
      rw [takeWhile_cons_of_neg (by simp [hd])]
  have hblank : ∀ d ∈ rest.takeWhile isAsciiSpace, isAsciiSpace d := all_eq_true.1 all_takeWhile
  rw [hrest]
  cases hblanks : rest.takeWhile isAsciiSpace with
  | nil => exact scanFrom_blanks hc (by simp) hstop
  | cons d ds =>
    rw [hblanks] at hblank
    rw [scanFrom_blanks hc hblank hstop, cons_append,
      scanFrom_blanks (hblank d (mem_cons_self ..)) (fun e he => hblank e (mem_cons_of_mem _ he)) hstop]
    congr 1
    rw [length_cons]
    omega

theorem scanFrom_line (hbody : '\n' ∉ body) :
    scanFrom file pos ('/' :: '/' :: (body ++ '\n' :: rest)) = scanFrom file (pos + (body.length + 3)) rest := by
  have hbody' : ∀ d ∈ '/' :: body, (d != '\n') = true := by
    intro d hd
    rcases mem_cons.1 hd with rfl | hd
    · rfl
    · simpa using fun h : d = '\n' => hbody (h ▸ hd)
  have hlead : lead '/' (('/' :: body) ++ '\n' :: rest) = { width := ('/' :: body).length + 1, word := none } := by
    rw [lead, if_neg (by decide), if_pos (by simp), takeWhile_append_of_pos hbody', Nat.add_comm]
    simp
  rw [show '/' :: (body ++ '\n' :: rest) = ('/' :: body) ++ '\n' :: rest from rfl, scanFrom_of_lead hlead]
  show scanFrom file (pos + (('/' :: body).length + 1)) ('\n' :: rest) = _
  rw [scanFrom_blank (by decide)]
  rfl

theorem commentLength_append (hbody : ¬['*', '/'] <:+: body) (rest : List Char) :
    commentLength (body ++ '*' :: '/' :: rest) = some (body.length + 2) := by
  induction body with
  | nil => rfl
  | cons d body ih =>
    have hopen : ¬['*', '/'] <:+: body := fun h => hbody (h.trans (suffix_cons d body).isInfix)
    rw [cons_append, commentLength]
    · rw [ih hopen]
      rfl
    · -- the mark that closes does not start at `d`
      rintro tail rfl htail
      refine hbody ?_
      cases body with
      | nil => cases htail
      | cons e body =>
        obtain rfl : e = '/' := (List.cons.inj htail).1
        exact ⟨[], body, rfl⟩

theorem scanFrom_block (hbody : ¬['*', '/'] <:+: body) :
    scanFrom file pos ('/' :: '*' :: (body ++ '*' :: '/' :: rest)) = scanFrom file (pos + (body.length + 4)) rest := by
  have hlead : lead '/' (('*' :: (body ++ ['*', '/'])) ++ rest) =
      { width := ('*' :: (body ++ ['*', '/'])).length + 1, word := none } := by
    have hlength := commentLength_append hbody rest
    rw [lead, if_neg (by decide), if_neg (by simp), if_pos (by simp)]
    simp [hlength]
    omega
  rw [show '*' :: (body ++ '*' :: '/' :: rest) = ('*' :: (body ++ ['*', '/'])) ++ rest by simp, scanFrom_of_lead hlead]
  simp

theorem Layout.scanFrom_append (h : Layout gap) (pos : Nat) (rest : List Char) :
    scanFrom file pos (gap ++ rest) = scanFrom file (pos + gap.length) rest := by
  induction h generalizing pos with
  | nil => rfl
  | blank hc _ ih => rw [cons_append, scanFrom_blank hc, ih, length_cons, Nat.add_assoc, Nat.add_comm 1]
  | @line body gap hbody _ ih =>
    rw [show '/' :: '/' :: (body ++ '\n' :: gap) ++ rest = '/' :: '/' :: (body ++ '\n' :: (gap ++ rest)) by simp,
      scanFrom_line hbody, ih]
    congr 1
    simp only [length_cons, length_append]
    omega
  | @block body gap hbody _ ih =>
    rw [show '/' :: '*' :: (body ++ '*' :: '/' :: gap) ++ rest = '/' :: '*' ::
      (body ++ '*' :: '/' :: (gap ++ rest)) by simp, scanFrom_block hbody, ih]
    congr 1
    simp only [length_cons, length_append]
    omega

/-! ## 4. Words are taken whole -/

theorem blank_cases (hspace : p ' ' = false) (htab : p '\t' = false) (hfeed : p '\n' = false)
    (hform : p '\x0c' = false) (hreturn : p '\r' = false) (h : isAsciiSpace c) : p c = false := by
  simp only [isAsciiSpace, Bool.or_eq_true, decide_eq_true_eq] at h
  rcases h with (((rfl | rfl) | rfl) | rfl) | rfl <;> assumption

theorem isIdentifierPart_blank (h : isAsciiSpace c) : isIdentifierPart c = false :=
  blank_cases rfl rfl rfl rfl rfl h

theorem lead_word (hc : isIdentifierStart c) (hcs : ∀ d ∈ cs, isIdentifierPart d)
    (hrest : Apart rest) :
    lead c (cs ++ rest) = { width := cs.length + 1, word := some (.ofWord (String.ofList (c :: cs))) } := by
  have hblank : ¬isAsciiSpace c := fun h => by
    have := isIdentifierPart_blank h
    rw [isIdentifierPart_of_start hc] at this
    cases this
  have hslash : c ≠ '/' := by
    rintro rfl
    cases hc
  rw [lead, if_neg hblank, if_neg (by simp [hslash]), if_neg (by simp [hslash]), if_pos hc,
    takeWhile_blank (fun _ => isIdentifierPart_blank) hcs hrest]
  rfl

theorem ofWord_keyword (k : Keyword) : Lexeme.ofWord k.spelling = .keyword k := by
  cases k <;> decide

theorem lead_number (hc : c.isDigit)
    (h : readNumber (c :: rest) = { result := .ok (.integer n), width := pos }) :
    lead c rest = { width := pos, word := some (.integer n) } := by
  have hblank : ¬isAsciiSpace c := fun h => by
    have := blank_cases (p := Char.isDigit) rfl rfl rfl rfl rfl h
    rw [hc] at this
    cases this
  have hne (d : Char) (hd : d.isDigit = false) : c ≠ d := by
    rintro rfl
    rw [hc] at hd
    cases hd
  have hslash := hne '/' rfl
  have hstart : isIdentifierStart c = false := by
    have := hne '_' rfl
    have := hne '$' rfl
    have hupper : c.isUpper = decide (c.val ≥ 'A'.val ∧ c.val ≤ 'Z'.val) := rfl
    have hlower : c.isLower = (c.val ≥ 'a'.val && c.val ≤ 'z'.val) := rfl
    have halpha : c.isAlpha = (c.isUpper || c.isLower) := rfl
    simp only [Char.isDigit, isIdentifierStart] at hc ⊢
    grind
  have hnumber : startsNumber (c :: rest) = true := by
    unfold startsNumber
    split
    · rename_i heq
      exact absurd (List.cons.inj heq).1 (hne '.' rfl)
    · rename_i heq
      rw [← (List.cons.inj heq).1]
      exact hc
    · rename_i heq
      cases heq
  rw [lead, if_neg hblank, if_neg (by simp [hslash]), if_neg (by simp [hslash]),
    if_neg (by simp [hstart]), if_pos hnumber, h]

theorem readExponent_apart (h : Apart rest) : readExponent rest = none := by
  cases rest with
  | nil => rfl
  | cons d rest =>
    have hd : (d = 'e' || d = 'E') = false :=
      blank_cases (p := fun d => d = 'e' || d = 'E') rfl rfl rfl rfl rfl (h d rfl)
    unfold readExponent
    simp only [hd]
    rfl

theorem readDecimal_apart (hcs : ∀ d ∈ cs, (d.isDigit || d = '_') = true) (hrest : Apart rest)
    (hmax : natOfDigits 10 (cs.filter (· != '_')) ≤ maxInteger) :
    readDecimal (cs ++ rest) = { result := .ok (.integer
      (natOfDigits 10 (cs.filter (· != '_')))), width := cs.length } := by
  have hdigit (d : Char) (hd : isAsciiSpace d) : (d.isDigit || d = '_') = false :=
    blank_cases (p := fun d => d.isDigit || d = '_') rfl rfl rfl rfl rfl hd
  have htake := takeWhile_blank hdigit hcs hrest
  have hdrop : (cs ++ rest).dropWhile (fun d => d.isDigit || d = '_') = rest := by
    have hsplit := takeWhile_append_dropWhile (p := fun d : Char => d.isDigit || d = '_') (l := cs ++ rest)
    rw [htake] at hsplit
    exact append_cancel_left hsplit
  have hexponent := readExponent_apart hrest
  unfold readDecimal
  simp only [htake, hdrop]
  cases rest with
  | nil => simp [readExponent, hmax]
  | cons d rest =>
    have hpoint : d ≠ '.' := by
      rintro rfl
      cases hrest '.' rfl
    simp [hpoint, hexponent, hmax]

theorem readNumber_decimal (hc : c.isDigit) (hcs : ∀ d ∈ cs, (d.isDigit || d = '_') = true)
    (hrest : Apart rest) (hmax : natOfDigits 10 ((c :: cs).filter (· != '_')) ≤ maxInteger) :
    readNumber (c :: (cs ++ rest)) =
      { result := .ok (.integer (natOfDigits 10 ((c :: cs).filter (· != '_')))), width := cs.length + 1 } := by
  have hnext : ∀ d ∈ (cs ++ rest).head?, (d = 'x' || d = 'X') = false := by
    intro d hd
    cases cs with
    | nil => exact blank_cases (p := fun d => d = 'x' || d = 'X') rfl rfl rfl rfl rfl (hrest d hd)
    | cons e cs =>
      obtain rfl : e = d := Option.some.inj hd
      have he := hcs e (mem_cons_self ..)
      by_contra hx
      simp only [Bool.not_eq_false, Bool.or_eq_true, decide_eq_true_eq] at hx
      rcases hx with rfl | rfl <;> cases he
  have hall : ∀ d ∈ c :: cs, (d.isDigit || d = '_') = true := by simpa [hc] using hcs
  have hdecimal := readDecimal_apart hall hrest hmax
  rw [cons_append] at hdecimal
  unfold readNumber
  split
  · rename_i heq
    rw [(List.cons.inj heq).2] at hnext
    rw [if_neg (by simp [hnext _ rfl]), hdecimal]
    rfl
  · exact hdecimal

theorem readNumber_hexadecimal {x : Char} (hx : x = 'x' ∨ x = 'X') (hcs : ∀ d ∈ cs, isHexDigit d)
    (hne : cs ≠ []) (hrest : Apart rest) (hmax : natOfDigits 16 cs ≤ maxInteger) :
    readNumber ('0' :: x :: (cs ++ rest)) = { result := .ok (.integer (natOfDigits 16 cs)), width := cs.length + 2 } := by
  have htake := takeWhile_blank (fun _ => blank_cases rfl rfl rfl rfl rfl) hcs hrest
  unfold readNumber
  split
  · rename_i heq
    obtain ⟨rfl, rfl⟩ := List.cons.inj (List.cons.inj heq).2
    rw [if_pos (by simpa using hx), htake, Nat.add_comm]
    simp [hne, hmax]
  · rename_i hno
    exact absurd rfl (hno x (cs ++ rest))

theorem isPrefixOf_apart {ls : List Char} (hls : ∀ c ∈ ls, isAsciiSpace c = false)
    (hrest : Apart rest) : ls.isPrefixOf (w ++ rest) = ls.isPrefixOf w := by
  induction ls generalizing w with
  | nil => cases w <;> cases rest <;> rfl
  | cons c ls ih =>
    cases w with
    | nil =>
      cases rest with
      | nil => rfl
      | cons d rest =>
        have hd : isAsciiSpace d := hrest d rfl
        have hcd : (c == d) = false := by
          rw [beq_eq_false_iff_ne]
          rintro rfl
          rw [hls c (mem_cons_self ..)] at hd
          cases hd
        simp [List.isPrefixOf, hcd]
    | cons e w =>
      rw [cons_append, List.isPrefixOf, List.isPrefixOf, ih fun d hd => hls d (mem_cons_of_mem _ hd)]

theorem find?_spellings :
    ∀ p ∈ Symbol.spellings, Symbol.spellings.find? (fun q => q.1.isPrefixOf p.1) = some p := by
  decide

theorem spellings_blank (p : List Char × Symbol) (hp : p ∈ Symbol.spellings) (c : Char)
    (hc : c ∈ p.1) : isAsciiSpace c = false := by
  have hall : ∀ p ∈ Symbol.spellings, p.1.all (fun c => !isAsciiSpace c) := by decide
  simpa using all_eq_true.1 (hall p hp) c hc

theorem read?_apart (h : (w, s) ∈ Symbol.spellings) (hrest : Apart rest) :
    Symbol.read? (w ++ rest) = some (s, w.length) := by
  have hfind : Symbol.spellings.find? (fun q => q.1.isPrefixOf (w ++ rest)) = some (w, s) := by
    rw [← find?_spellings _ h, ← head?_filter, ← head?_filter]
    congr 1
    exact filter_congr fun q hq => isPrefixOf_apart (spellings_blank q hq) hrest
  unfold Symbol.read?
  rw [hfind]
  rfl

theorem spellings_start {p : List Char × Symbol} (hp : p ∈ Symbol.spellings) : ∃ c ∈ p.1.head?,
    (isAsciiSpace c || isIdentifierStart c || c.isDigit) = false ∧
    (c = '/' → p.1.tail.head? ≠ some '/' ∧ p.1.tail.head? ≠ some '*') ∧ (c = '.' → p.1.tail = []) := by
  have hany : ∀ p ∈ Symbol.spellings, p.1.head?.any fun c =>
      decide ((isAsciiSpace c || isIdentifierStart c || c.isDigit) = false ∧
        (c = '/' → p.1.tail.head? ≠ some '/' ∧ p.1.tail.head? ≠ some '*') ∧ (c = '.' → p.1.tail = [])) := by decide
  simpa only [Option.any_eq_true, decide_eq_true_eq, Option.mem_def] using hany p hp

theorem lead_symbol (h : (w, s) ∈ Symbol.spellings) (hrest : Apart rest) :
    ∃ c cs, w = c :: cs ∧ lead c (cs ++ rest) = { width := cs.length + 1, word := some (.symbol s) } := by
  obtain ⟨c, hc, hstart, hslash, hdot⟩ := spellings_start h
  obtain ⟨cs, rfl⟩ := head?_eq_some_iff.1 hc
  simp only [Bool.or_eq_false_iff] at hstart
  obtain ⟨⟨hblank, hidentifier⟩, hdigit⟩ := hstart
  -- what follows the first character belongs to the symbol or is a blank
  have hnext (d : Char) (hd : isAsciiSpace d = false) (hcs : cs.head? ≠ some d) : (cs ++ rest).head? ≠ some d := by
    cases cs with
    | nil =>
      intro hhead
      rw [hrest d hhead] at hd
      cases hd
    | cons e cs => exact hcs
  have hcomment (d : Char) (hd : isAsciiSpace d = false) (hcs : c = '/' → cs.head? ≠ some d) :
      ¬(c = '/' && (cs ++ rest).head? = some d) = true := by
    simp only [Bool.and_eq_true, decide_eq_true_eq]
    exact fun hboth => hnext d hd (hcs hboth.1) hboth.2
  have hnumber : ¬startsNumber (c :: (cs ++ rest)) = true := by
    unfold startsNumber
    split
    · rename_i d tail heq
      obtain ⟨rfl, htail⟩ := List.cons.inj heq
      obtain rfl : cs = [] := hdot rfl
      have hd : isAsciiSpace d := hrest d (by rw [nil_append] at htail; rw [htail]; rfl)
      simp [blank_cases (p := Char.isDigit) rfl rfl rfl rfl rfl hd]
    · rename_i heq
      rw [← (List.cons.inj heq).1, hdigit]
      simp
    · simp
  refine ⟨c, cs, rfl, ?_⟩
  have hread := read?_apart h hrest
  rw [cons_append] at hread
  rw [lead, if_neg (by simp [hblank]), if_neg (hcomment '/' rfl fun h => (hslash h).1),
    if_neg (hcomment '*' rfl fun h => (hslash h).2), if_neg (by simp [hidentifier]), if_neg hnumber, hread]
  rfl

theorem Spelling.lead (h : Spelling l w) (hrest : Apart rest) :
    ∃ c cs, w = c :: cs ∧ Surface.lead c (cs ++ rest) = { width := cs.length + 1, word := some l } := by
  cases h with
  | keyword k =>
    obtain ⟨c, cs, hw, hc, hcs⟩ : ∃ c cs, k.spelling.toList = c :: cs ∧ isIdentifierStart c ∧
        ∀ d ∈ cs, isIdentifierPart d := by
      cases k <;> exact ⟨_, _, rfl, by decide, all_eq_true.1 (by decide)⟩
    refine ⟨c, cs, hw, ?_⟩
    rw [lead_word hc hcs hrest, ← hw, String.ofList_toList, ofWord_keyword]
  | symbol h => exact lead_symbol h hrest
  | identifier hc hcs hk =>
    refine ⟨_, _, rfl, ?_⟩
    rw [lead_word hc hcs hrest, Lexeme.ofWord, hk]
  | decimal hc hcs hn hmax =>
    subst hn
    exact ⟨_, _, rfl, lead_number hc (readNumber_decimal hc hcs hrest hmax)⟩
  | @hexadecimal x cs hx hcs hne n hn hmax =>
    subst hn
    exact ⟨'0', x :: cs, rfl, lead_number rfl (readNumber_hexadecimal hx hcs hne hrest hmax)⟩

/-! ## 5. Texts -/

theorem Spelling.scanFrom_append (h : Spelling l w) (hrest : Apart rest) :
    scanFrom file pos (w ++ rest) =
      { scanFrom file (pos + w.length) rest with
        tokens := ⟨l, ⟨file, pos, pos + w.length⟩⟩ :: (scanFrom file (pos + w.length) rest).tokens } := by
  obtain ⟨c, cs, rfl, hlead⟩ := h.lead hrest
  exact scanFrom_of_lead hlead

theorem Apart.append (h : Apart gap) (hne : gap ≠ []) (rest : List Char) : Apart (gap ++ rest) := by
  obtain ⟨c, cs, rfl⟩ := exists_cons_of_ne_nil hne
  exact h

theorem scanFrom_textOf {ps : List Piece} (h : Separated ps) (pos : Nat) :
    scanFrom file pos (textOf ps) =
      { tokens := tokensOf file pos ps, complaints := [], stop := pos + (textOf ps).length } := by
  induction ps generalizing pos with
  | nil =>
    rw [textOf, flatMap_nil, scanFrom]
    rfl
  | cons p ps ih =>
    have hrest : Apart (p.gap ++ textOf ps) := by
      cases ps with
      | nil =>
        rw [textOf, flatMap_nil, append_nil]
        exact p.apart
      | cons q ps => exact p.apart.append (h p (by simp)) _
    have htail : Separated ps := by
      cases ps with
      | nil => exact fun _ hp => by cases hp
      | cons q ps => exact fun r hr => h r (by simp [hr])
    rw [show textOf (p :: ps) = p.word ++ (p.gap ++ textOf ps) by simp [textOf], p.spelled.scanFrom_append hrest,
      p.layout.scanFrom_append, ih htail]
    simp only [tokensOf, length_append, Nat.add_assoc]

/-- All words but floats can be spelled. Spelled one after another, with a layout in front and
between them, they are scanned as they are: each has the span of its spelling, nothing is complained
about, and the scan ends at the end of the text. -/
theorem scan_spelled (file : Nat) (source : String) {gap : List Char} {ps : List Piece}
    (hgap : Layout gap) (hps : Separated ps) (hsource : octets source = gap ++ textOf ps) :
    (∀ l : Lexeme, (∃ w, Spelling l w) ↔ l.Plain) ∧
    (scan file source).tokens = tokensOf file gap.length ps ∧ (scan file source).complaints = [] ∧
    (scan file source).stop = (octets source).length := by
  have hscan : scan file source = scanFrom file (0 + gap.length) (textOf ps) := by
    rw [scan, hsource, hgap.scanFrom_append]
  rw [hscan, scanFrom_textOf hps, Nat.zero_add, hsource, List.length_append]
  exact ⟨exists_spelling_iff, rfl, rfl, rfl⟩

/-- A comment counts by its octets: the letter in it takes two. -/
theorem scan_spelled_comments :
    octets "let n /*é*/ = 12 // x\n;" =
      ['l', 'e', 't', ' ', 'n', ' ', '/', '*', '\xc3', '\xa9', '*', '/', ' ', '=', ' ', '1', '2',
        ' ', '/', '/', ' ', 'x', '\n', ';'] ∧
    (scan 0 "let n /*é*/ = 12 // x\n;").tokens =
      [⟨.keyword .let_, ⟨0, 0, 3⟩⟩, ⟨.identifier "n", ⟨0, 4, 5⟩⟩, ⟨.symbol .assign, ⟨0, 13, 14⟩⟩,
        ⟨.integer 12, ⟨0, 15, 17⟩⟩, ⟨.symbol .semicolon, ⟨0, 23, 24⟩⟩] ∧
    (scan 0 "let n /*é*/ = 12 // x\n;").complaints = [] := by
  have hoctets : octets "let n /*é*/ = 12 // x\n;" =
      ['l', 'e', 't', ' ', 'n', ' ', '/', '*', '\xc3', '\xa9', '*', '/', ' ', '=', ' ', '1', '2',
        ' ', '/', '/', ' ', 'x', '\n', ';'] := by
    decide +kernel
  have hblank : Layout [' '] := .blank rfl .nil
  let word (k : Keyword) : Piece := ⟨.keyword k, _, [' '], .keyword k, hblank, by decide⟩
  have hletter : Layout [' ', '/', '*', '\xc3', '\xa9', '*', '/', ' '] :=
    .blank rfl (@Layout.block ['\xc3', '\xa9'] _ (by decide) hblank)
  have hend : Layout [' ', '/', '/', ' ', 'x', '\n'] := .blank rfl (@Layout.line [' ', 'x'] _ (by decide) .nil)
  let name : Piece := ⟨_, ['n'], _, @Spelling.identifier 'n' [] rfl (by simp) (by decide), hletter, by decide⟩
  let sign : Piece := ⟨.symbol .assign, ['='], [' '], .symbol (by decide), hblank, by decide⟩
  let twelve : Piece := ⟨.integer 12, ['1', '2'], _,
    .decimal rfl (List.all_eq_true.1 (by decide)) rfl (by decide), hend, by decide⟩
  let last : Piece := ⟨.symbol .semicolon, [';'], [], .symbol (by decide), .nil, by decide⟩
  have hpieces : Separated [word .let_, name, sign, twelve, last] := by simp [Separated, word]
  have h := scan_spelled 0 _ .nil hpieces hoctets
  exact ⟨hoctets, h.2.1, h.2.2.1⟩

end ArrayKernel.Surface
