import CeQuery.Foundation.BoundedInt
import CeQuery.Foundation.FloatOrder
import Mathlib.Data.List.Infix
import Mathlib.Data.List.TakeWhile

/-!
# Reading numbers from text

Text is handled as its list of characters. The readers here are those of a
systems language's standard library: whitespace is the Unicode property
`White_Space`, an integer is an optional sign followed by decimal digits, and a
binary64 number is a signed decimal numeral with an optional exponent or one of
the words for infinity and NaN.

Each reader takes the whole text and returns nothing when a character is left
over, so acceptance and the denoted value are one function.
-/

namespace CeQuery

namespace Text

/-- What holds of all characters of a text is decided along the text, where a search
through all characters would be an instance as well. -/
instance decidableForallMem {p : Char → Prop} [DecidablePred p] {cs : List Char} :
    Decidable (∀ c ∈ cs, p c) :=
  List.decidableBAll p cs

/-- The Unicode property `White_Space`. -/
def isWhitespace (c : Char) : Bool :=
  let n := c.toNat
  (0x9 ≤ n && n ≤ 0xD) || n == 0x20 || n == 0x85 || n == 0xA0 || n == 0x1680 ||
    (0x2000 ≤ n && n ≤ 0x200A) || n == 0x2028 || n == 0x2029 || n == 0x202F || n == 0x205F ||
    n == 0x3000

/-- Remove whitespace at both ends. -/
def trim (cs : List Char) : List Char :=
  ((cs.dropWhile isWhitespace).reverse.dropWhile isWhitespace).reverse

/-- A line without the carriage return before its line feed. -/
def withoutReturn (line : List Char) : List Char :=
  if line.getLast? = some '\r' then line.dropLast else line

/-- The lines among the parts between line feeds: what stands behind the last line feed
is a line if it is not empty. -/
def endedLines : List (List Char) → List (List Char)
  | [] => []
  | [last] => if last = [] then [] else [last]
  | part :: parts => withoutReturn part :: endedLines parts

/-- The lines of a text, without their line ends. A line ends with a line feed
that a carriage return may precede; the last one need not be ended. -/
def lines (cs : List Char) : List (List Char) :=
  endedLines (cs.splitOn '\n')

/-- The ASCII letters in lower case, every other character unchanged. -/
def asciiLower (c : Char) : Char :=
  if 'A' ≤ c ∧ c ≤ 'Z' then Char.ofNat (c.toNat + 32) else c

/-- The ASCII letters in upper case, every other character unchanged. -/
def asciiUpper (c : Char) : Char :=
  if 'a' ≤ c ∧ c ≤ 'z' then Char.ofNat (c.toNat - 32) else c

/-- Whether the text contains the pattern, up to the case of its ASCII letters. -/
def mentions (text pattern : String) : Bool :=
  decide (pattern.toList <:+: text.toList.map asciiLower)

/-- Equality of two texts up to the case of ASCII letters. -/
def eqIgnoreAsciiCase (xs ys : List Char) : Bool :=
  xs.map asciiLower == ys.map asciiLower

def isDigit (c : Char) : Bool :=
  '0' ≤ c && c ≤ '9'

def digitValue (c : Char) : Nat :=
  c.toNat - '0'.toNat

/-- The number a sequence of digits denotes, continuing from `acc`. -/
def digitsValue (acc : Nat) (ds : List Char) : Nat :=
  ds.foldl (fun n d => 10 * n + digitValue d) acc

/-- A nonempty sequence of digits and nothing else. -/
def natural (cs : List Char) : Option Nat :=
  if cs ≠ [] ∧ cs.all isDigit then some (digitsValue 0 cs) else none

/-- An unsigned integer; a plus sign is allowed. -/
def unsigned : List Char → Option Int
  | '+' :: cs => (natural cs).map (↑·)
  | cs => (natural cs).map (↑·)

/-- A signed integer. -/
def signed : List Char → Option Int
  | '-' :: cs => (natural cs).map (-↑·)
  | cs => unsigned cs

/-- Trimming removes nothing but whitespace. -/
theorem exists_whitespace_of_trim_ne {cs : List Char} (h : trim cs ≠ cs) :
    ∃ c ∈ cs, isWhitespace c = true := by
  by_contra! hnone
  have hnone : ∀ c ∈ cs, isWhitespace c = false :=
    fun c hc => Bool.eq_false_iff.mpr (hnone c hc)
  have hkept : ∀ {ds : List Char}, (∀ c ∈ ds, isWhitespace c = false) →
      ds.dropWhile isWhitespace = ds := by
    intro ds hds
    cases ds with
    | nil => rfl
    | cons d ds => exact List.dropWhile_cons_of_neg (by simp [hds d List.mem_cons_self])
  apply h
  rw [trim, hkept hnone, hkept (fun c hc => hnone c (List.mem_reverse.mp hc)), List.reverse_reverse]

section Trim

variable {cs gap line rest : List Char} {c : Char}

private theorem dropWhile_gap (h : ∀ c ∈ gap, isWhitespace c = true) :
    (gap ++ cs).dropWhile isWhitespace = cs.dropWhile isWhitespace := by
  rw [List.dropWhile_append, List.dropWhile_eq_nil_iff.mpr h]
  rfl

/-- Whitespace behind a text is trimmed. -/
theorem trim_append_gap (h : ∀ c ∈ gap, isWhitespace c = true) : trim (cs ++ gap) = trim cs := by
  rw [trim, trim, List.dropWhile_append]
  split
  · rename_i hspace
    rw [List.isEmpty_iff.mp hspace, List.dropWhile_eq_nil_iff.mpr h]
  · rw [List.reverse_append, dropWhile_gap fun c hc => h c (List.mem_reverse.mp hc)]

/-- A text of whitespace is trimmed away. -/
theorem trim_gap (h : ∀ c ∈ gap, isWhitespace c = true) : trim gap = [] :=
  @trim_append_gap [] gap h

/-- A text that neither starts nor ends with whitespace is left as it is. -/
theorem trim_eq_self (hfirst : ∀ c ∈ cs.head?, isWhitespace c = false)
    (hlast : ∀ c ∈ cs.getLast?, isWhitespace c = false) : trim cs = cs := by
  have hkept : ∀ {ds : List Char}, (∀ c ∈ ds.head?, isWhitespace c = false) →
      ds.dropWhile isWhitespace = ds := by
    intro ds hds
    cases ds with
    | nil => rfl
    | cons d ds => exact List.dropWhile_cons_of_neg (by simp [hds d rfl])
  rw [trim, hkept hfirst, hkept, List.reverse_reverse]
  rwa [List.head?_reverse]

private theorem head?_dropWhile_space :
    ∀ c ∈ (cs.dropWhile isWhitespace).head?, isWhitespace c = false := by
  intro c hc
  have hfirst := List.head?_dropWhile_not isWhitespace cs
  rw [Option.mem_def.mp hc] at hfirst
  exact hfirst

theorem trim_trim : trim (trim cs) = trim cs := by
  apply trim_eq_self
  · intro c hc
    obtain ⟨rest, hrest⟩ := List.head?_eq_some_iff.mp hc
    have hprefix : trim cs <+: cs.dropWhile isWhitespace := by
      rw [← List.reverse_suffix, trim, List.reverse_reverse]
      exact List.dropWhile_suffix _
    obtain ⟨more, hmore⟩ := hprefix
    have hhead : c ∈ (cs.dropWhile isWhitespace).head? := by
      rw [← hmore, hrest]
      rfl
    exact head?_dropWhile_space c hhead
  · intro c hc
    rw [trim, List.getLast?_reverse] at hc
    exact head?_dropWhile_space c hc

theorem trim_withoutReturn : trim (withoutReturn cs) = trim cs := by
  rw [withoutReturn]
  split
  · rename_i hreturn
    obtain ⟨ds, rfl⟩ := List.getLast?_eq_some_iff.mp hreturn
    rw [List.dropLast_concat]
    exact (trim_append_gap (List.forall_mem_singleton.mpr (by decide))).symm
  · rfl

end Trim

section Lines

variable {cs ds line gap : List Char} {parts rest : List (List Char)}

theorem endedLines_append (h : rest ≠ []) :
    endedLines (parts ++ rest) = parts.map withoutReturn ++ endedLines rest := by
  induction parts with
  | nil => rfl
  | cons part parts ih =>
      obtain ⟨next, more, hmore⟩ :=
        List.exists_cons_of_ne_nil (List.append_ne_nil_of_right_ne_nil parts h)
      rw [List.cons_append, List.map_cons, List.cons_append, ← ih, hmore, endedLines]
      exact fun h => by cases h

/-- The lines before a line feed and those behind it. -/
theorem lines_append_cons :
    lines (cs ++ '\n' :: ds) = (cs.splitOn '\n').map withoutReturn ++ lines ds := by
  have hsplit : (cs ++ '\n' :: ds).splitOn '\n' = cs.splitOn '\n' ++ ds.splitOn '\n' :=
    List.splitOnP_append_cons cs ds (beq_self_eq_true '\n')
  rw [lines, hsplit, endedLines_append (List.splitOn_ne_nil _ _), lines]

theorem lines_ended (h : '\n' ∉ cs) : lines (cs ++ '\n' :: ds) = withoutReturn cs :: lines ds := by
  rw [lines_append_cons, List.splitOn_eq_singleton h]
  rfl

/-- The trimmed lines that are not blank. -/
def contents (cs : List Char) : List (List Char) :=
  ((lines cs).map trim).filter fun line => line ≠ []

/-- The text is empty or ends with a line feed. -/
def LineStart (cs : List Char) : Prop :=
  cs = [] ∨ ∃ before, cs = before ++ ['\n']

theorem contents_append (h : LineStart cs) : contents (cs ++ ds) = contents cs ++ contents ds := by
  obtain rfl | ⟨before, rfl⟩ := h
  · rfl
  · have hlines : lines (before ++ ['\n'] ++ ds) = lines (before ++ ['\n']) ++ lines ds := by
      rw [List.append_assoc, lines_append_cons, List.singleton_append, lines_append_cons]
      simp [lines, endedLines]
    rw [contents, hlines, List.map_append, List.filter_append, contents, contents]

theorem contents_ended (h : '\n' ∉ cs) :
    contents (cs ++ '\n' :: ds) = (if trim cs = [] then [] else [trim cs]) ++ contents ds := by
  rw [contents, lines_ended h, List.map_cons, trim_withoutReturn, List.filter_cons]
  by_cases hblank : trim cs = []
  · simp [hblank, contents]
  · simp [hblank, contents]

/-- Whitespace has no contents. -/
theorem contents_gap (h : ∀ c ∈ gap, isWhitespace c = true) : contents gap = [] := by
  induction hlength : gap.length using Nat.strong_induction_on generalizing gap with
  | _ n ih =>
      by_cases hfeed : '\n' ∈ gap
      · obtain ⟨line, rest, rfl, hline⟩ := List.eq_append_cons_of_mem hfeed
        rw [List.forall_mem_append, List.forall_mem_cons] at h
        rw [List.length_append, List.length_cons] at hlength
        rw [contents_ended hline, if_pos (trim_gap h.1), ih rest.length (by omega) h.2.2 rfl]
        rfl
      · rw [contents, lines, List.splitOn_eq_singleton hfeed, endedLines]
        split
        · rfl
        · rw [List.map_singleton, trim_gap h]
          rfl

/-- How a text may be changed without changing its contents: blank lines are put in,
and line ends become a carriage return with a line feed. -/
inductive Reflow : List Char → List Char → Prop
  | blank {before gap after : List Char} (start : LineStart before)
      (space : ∀ c ∈ gap, isWhitespace c = true) :
      Reflow (before ++ after) (before ++ (gap ++ '\n' :: after))
  | unended {before gap : List Char} (start : LineStart before)
      (space : ∀ c ∈ gap, isWhitespace c = true) : Reflow before (before ++ gap)
  | crlf {before line after : List Char} (start : LineStart before) (one : '\n' ∉ line) :
      Reflow (before ++ (line ++ '\n' :: after)) (before ++ (line ++ '\r' :: '\n' :: after))

theorem Reflow.contents (h : Reflow cs ds) : contents ds = contents cs := by
  cases h with
  | @blank before gap after start space =>
      have hgap : LineStart (gap ++ ['\n']) := .inr ⟨gap, rfl⟩
      have hspace : ∀ c ∈ gap ++ ['\n'], isWhitespace c = true :=
        List.forall_mem_append.mpr ⟨space, List.forall_mem_singleton.mpr (by decide)⟩
      rw [contents_append start, contents_append start, List.append_cons, contents_append hgap,
        contents_gap hspace, List.nil_append]
  | unended start space => rw [contents_append start, contents_gap space, List.append_nil]
  | @crlf before line after start one =>
      have hreturn : '\n' ∉ line ++ ['\r'] := by
        simpa using one
      rw [contents_append start, contents_append start, List.append_cons line,
        contents_ended hreturn, contents_ended one,
        trim_append_gap (List.forall_mem_singleton.mpr (by decide))]

end Lines

/-- Numbers with the same decimal digits are equal. -/
theorem toString_inj {m n : Nat} (h : toString m = toString n) : m = n := by
  rw [Nat.toString_eq_ofList_toDigits, Nat.toString_eq_ofList_toDigits, String.ofList_inj] at h
  have hread := Nat.ofDigitChars_toDigits (b := 10) (n := m) (by decide) (by decide)
  rw [h, Nat.ofDigitChars_toDigits (by decide) (by decide)] at hread
  exact hread.symm

theorem eqIgnoreAsciiCase_iff {xs ys : List Char} :
    eqIgnoreAsciiCase xs ys = true ↔ xs.map asciiLower = ys.map asciiLower :=
  beq_iff_eq

/-- A capital letter is read as the small one. -/
private theorem asciiUpper_ofNat : ∀ n : Fin 26, asciiUpper (Char.ofNat (n + 97)) =
    Char.ofNat (n + 65) ∧ asciiUpper (Char.ofNat (n + 65)) = Char.ofNat (n + 65) := by
  decide

theorem asciiUpper_asciiLower (c : Char) : asciiUpper (asciiLower c) = asciiUpper c := by
  rw [asciiLower]
  split
  · rename_i h
    have h1 : 65 ≤ c.toNat := h.1
    have h2 : c.toNat ≤ 90 := h.2
    have := asciiUpper_ofNat ⟨c.toNat - 65, by omega⟩
    have hc : c.toNat - 65 + 65 = c.toNat := by omega
    have hc' : c.toNat - 65 + 97 = c.toNat + 32 := by omega
    simp only [hc, hc', Char.ofNat_toNat] at this
    rw [this.1, this.2]
  · rfl

/-- A small letter is read as the capital one. -/
private theorem asciiLower_ofNat : ∀ n : Fin 26, asciiLower (Char.ofNat (n + 97)) =
    Char.ofNat (n + 97) ∧ asciiLower (Char.ofNat (n + 65)) = Char.ofNat (n + 97) := by
  decide

theorem asciiLower_asciiUpper (c : Char) : asciiLower (asciiUpper c) = asciiLower c := by
  rw [asciiUpper]
  split
  · rename_i h
    have hlo : 97 ≤ c.toNat := h.1
    have hhi : c.toNat ≤ 122 := h.2
    have hletter := asciiLower_ofNat ⟨c.toNat - 97, by omega⟩
    have hupper : c.toNat - 97 + 65 = c.toNat - 32 := by omega
    simp only [Nat.sub_add_cancel hlo, hupper, Char.ofNat_toNat] at hletter
    rw [hletter.1, hletter.2]
  · rfl

theorem natural_toString (n : Nat) : natural (toString n).toList = some n := by
  rw [Nat.toString_eq_ofList_toDigits, String.toList_ofList, natural, if_pos]
  · have := Nat.ofDigitChars_toDigits (b := 10) (n := n) (by decide) (by decide)
    exact congrArg some this
  · refine ⟨Nat.toDigits_ne_nil, ?_⟩
    rw [List.all_eq_true]
    intro c hc
    have hdigit := Nat.isDigit_of_mem_toDigits (b := 10) (by decide) (by decide) hc
    simp only [Char.isDigit, Bool.and_eq_true, decide_eq_true_eq] at hdigit
    exact Bool.and_eq_true_iff.mpr ⟨decide_eq_true hdigit.1, decide_eq_true hdigit.2⟩

/-- Only digits are read as a sequence of digits. -/
theorem isDigit_of_natural {cs : List Char} {n : Nat} (h : natural cs = some n) :
    ∀ c ∈ cs, isDigit c = true := by
  rw [natural] at h
  split at h
  · rename_i hdigits
    exact List.all_eq_true.mp hdigits.2
  · cases h

theorem unsigned_of_natural {cs : List Char} {n : Nat} (h : natural cs = some n) :
    unsigned cs = some (n : Int) := by
  unfold unsigned
  split
  · exact absurd (isDigit_of_natural h '+' List.mem_cons_self) (by decide)
  · rw [h]
    rfl

theorem signed_of_natural {cs : List Char} {n : Nat} (h : natural cs = some n) :
    signed cs = some (n : Int) := by
  unfold signed
  split
  · exact absurd (isDigit_of_natural h '-' List.mem_cons_self) (by decide)
  · exact unsigned_of_natural h

/-- A signed integer is read back from its decimal digits. -/
theorem signed_toString (n : Int) : signed (toString n).toList = some n := by
  cases n with
  | ofNat n => exact signed_of_natural (natural_toString n)
  | negSucc n =>
      have htext : (toString (Int.negSucc n)).toList = '-' :: (toString (n + 1)).toList := by
        change ("-" ++ (n + 1).repr).toList = _
        rw [String.toList_append]
        rfl
      rw [htext, signed, natural_toString]
      rfl

theorem unsigned_toString {n : Int} (h : 0 ≤ n) : unsigned (toString n).toList = some n := by
  obtain ⟨m, rfl⟩ := Int.eq_ofNat_of_zero_le h
  exact unsigned_of_natural (natural_toString m)

/-- The characters of an integer are digits and signs. -/
theorem mem_of_signed {cs : List Char} {n : Int} (h : signed cs = some n) :
    ∀ c ∈ cs, isDigit c = true ∨ c = '+' ∨ c = '-' := by
  have hdigits : ∀ {cs : List Char}, natural cs ≠ none → ∀ c ∈ cs, isDigit c = true := by
    intro cs h
    obtain ⟨m, hm⟩ := Option.ne_none_iff_exists'.mp h
    exact isDigit_of_natural hm
  intro c hc
  unfold signed at h
  split at h
  · rcases List.mem_cons.mp hc with rfl | hc
    · exact .inr (.inr rfl)
    · exact .inl (hdigits (fun hnone => by rw [hnone] at h; cases h) c hc)
  · unfold unsigned at h
    split at h
    · rcases List.mem_cons.mp hc with rfl | hc
      · exact .inr (.inl rfl)
      · exact .inl (hdigits (fun hnone => by rw [hnone] at h; cases h) c hc)
    · exact .inl (hdigits (fun hnone => by rw [hnone] at h; cases h) c hc)

end Text

/-- A sign character, if there is one, and the remaining text. -/
private def splitSign : List Char → Bool × List Char
  | '-' :: cs => (true, cs)
  | '+' :: cs => (false, cs)
  | cs => (false, cs)

namespace Decimal

open Text

/-- A decimal numeral: `mantissa * 10 ^ exponent`. -/
structure Numeral where
  mantissa : Nat
  exponent : Int

/-- The exponent part; nothing at all stands for exponent zero. -/
def exponentPart : List Char → Option Int
  | [] => some 0
  | c :: cs =>
      if c = 'e' ∨ c = 'E' then
        let (negative, ds) := splitSign cs
        (natural ds).map fun n => if negative then -n else n
      else none

/-- Digits with an optional point, at least one digit on either side of it, and
an optional exponent. -/
def numeral (cs : List Char) : Option Numeral :=
  let whole := cs.takeWhile isDigit
  let rest := cs.dropWhile isDigit
  let (fraction, rest) := match rest with
    | '.' :: rest => (rest.takeWhile isDigit, rest.dropWhile isDigit)
    | rest => ([], rest)
  if whole = [] ∧ fraction = [] then none
  else (exponentPart rest).map fun e =>
    { mantissa := digitsValue 0 (whole ++ fraction)
      exponent := e - fraction.length }

/-- The binary64 number nearest to a numeral. -/
def Numeral.toFloat (n : Numeral) : F64 :=
  Float.ofModel (Float.Model.ofScientific n.mantissa n.exponent)

/-- The words for the values that no numeral denotes, in any letter case. -/
def word (cs : List Char) : Option F64 :=
  if eqIgnoreAsciiCase cs ['n', 'a', 'n'] then some (0 / 0)
  else if eqIgnoreAsciiCase cs ['i', 'n', 'f'] ||
      eqIgnoreAsciiCase cs ['i', 'n', 'f', 'i', 'n', 'i', 't', 'y'] then some (1 / 0)
  else none

/-- Read a binary64 number from a complete text. -/
def parse (cs : List Char) : Option F64 :=
  let (negative, body) := splitSign cs
  let magnitude := ((numeral body).map Numeral.toFloat).or (word body)
  magnitude.map fun x => if negative then -x else x

/-- The characters of which a number is written, in small letters. -/
def alphabet : List Char :=
  "0123456789+-.einftya".toList

theorem isDigit_cases {c : Char} (h : isDigit c = true) : c ∈ "0123456789".toList := by
  have hc := Bool.and_eq_true_iff.mp h
  have h1 : 48 ≤ c.toNat := of_decide_eq_true hc.1
  have h2 : c.toNat ≤ 57 := of_decide_eq_true hc.2
  have hall : ∀ n : Fin 10, Char.ofNat (n + 48) ∈ "0123456789".toList := by decide
  have := hall ⟨c.toNat - 48, by omega⟩
  simpa [Nat.sub_add_cancel h1] using this

theorem mem_alphabet_of_isDigit {c : Char} (h : isDigit c = true) : asciiLower c ∈ alphabet := by
  have hall : ∀ c ∈ "0123456789".toList, asciiLower c ∈ alphabet := by decide
  exact hall c (isDigit_cases h)

/-- The characters of a number are in the alphabet, up to their case. -/
def Spelt (cs : List Char) : Prop :=
  ∀ c ∈ cs, asciiLower c ∈ alphabet

theorem spelt_of_natural {cs : List Char} {n : Nat} (h : natural cs = some n) : Spelt cs :=
  fun c hc => mem_alphabet_of_isDigit (isDigit_of_natural h c hc)

theorem spelt_of_splitSign {cs : List Char} (h : Spelt (splitSign cs).2) : Spelt cs := by
  intro c hc
  unfold splitSign at h
  split at h
  · rcases List.mem_cons.mp hc with rfl | hc
    · decide
    · exact h c hc
  · rcases List.mem_cons.mp hc with rfl | hc
    · decide
    · exact h c hc
  · exact h c hc

theorem spelt_of_exponentPart {cs : List Char} {e : Int} (h : exponentPart cs = some e) :
    Spelt cs := by
  cases cs with
  | nil => exact nofun
  | cons c cs =>
      rw [exponentPart] at h
      split at h
      · rename_i hc
        obtain ⟨n, hn, _⟩ := Option.map_eq_some_iff.mp h
        obtain ⟨m, hm, _⟩ := Option.bind_eq_some_iff.mp hn
        refine List.forall_mem_cons.mpr ⟨?_, spelt_of_splitSign (spelt_of_natural hm)⟩
        rcases hc with rfl | rfl <;> decide
      · cases h

theorem spelt_of_numeral {cs : List Char} {n : Numeral} (h : numeral cs = some n) : Spelt cs := by
  have hdigits : ∀ cs : List Char, Spelt (cs.takeWhile isDigit) :=
    fun cs c hc => mem_alphabet_of_isDigit (List.mem_takeWhile_imp hc)
  rw [← List.takeWhile_append_dropWhile (p := isDigit) (l := cs)]
  refine List.forall_mem_append.mpr ⟨hdigits cs, ?_⟩
  simp only [numeral] at h
  split at h
  · rename_i rest hrest
    obtain ⟨e, he, _⟩ := Option.map_eq_some_iff.mp (Option.ite_none_left_eq_some.mp h).2
    rw [hrest, ← List.takeWhile_append_dropWhile (p := isDigit) (l := rest)]
    refine List.forall_mem_cons.mpr ⟨by decide, ?_⟩
    exact List.forall_mem_append.mpr ⟨hdigits rest, spelt_of_exponentPart he⟩
  · obtain ⟨e, he, _⟩ := Option.map_eq_some_iff.mp (Option.ite_none_left_eq_some.mp h).2
    exact spelt_of_exponentPart he

theorem spelt_of_word {cs : List Char} {x : F64} (h : word cs = some x) : Spelt cs := by
  have hlower : ∀ {ds : List Char}, eqIgnoreAsciiCase cs ds = true →
      (∀ d ∈ ds.map asciiLower, d ∈ alphabet) → Spelt cs := by
    intro ds heq hds c hc
    apply hds _
    rw [← eqIgnoreAsciiCase_iff.mp heq]
    exact List.mem_map_of_mem hc
  rw [word] at h
  split at h
  · rename_i heq
    exact hlower heq (by decide)
  · split at h
    · rename_i heq
      rcases Bool.or_eq_true_iff.mp heq with heq | heq
      · exact hlower heq (by decide)
      · exact hlower heq (by decide)
    · cases h

/-- What is read as a number is written in the alphabet of numbers. -/
theorem spelt_of_parse {cs : List Char} {x : F64} (h : parse cs = some x) : Spelt cs := by
  obtain ⟨y, hy, _⟩ := Option.map_eq_some_iff.mp h
  apply spelt_of_splitSign
  rcases Option.or_eq_some_iff.mp hy with hnumeral | ⟨_, hword⟩
  · obtain ⟨n, hn, _⟩ := Option.map_eq_some_iff.mp hnumeral
    exact spelt_of_numeral hn
  · exact spelt_of_word hword

/-- Whitespace is not among the characters of a number. -/
theorem not_mem_alphabet_of_isWhitespace {c : Char} (h : isWhitespace c = true) :
    asciiLower c ∉ alphabet := by
  have hspaces : ∀ d ∈ alphabet, isWhitespace d = false := by decide
  have hupper : ∀ n : Fin 26, isWhitespace (Char.ofNat (n + 65)) = false := by decide
  intro hmem
  rw [asciiLower] at hmem
  split at hmem
  · rename_i hletter
    have hlo : 65 ≤ c.toNat := hletter.1
    have hhi : c.toNat ≤ 90 := hletter.2
    have hnone := hupper ⟨c.toNat - 65, by omega⟩
    simp only [Nat.sub_add_cancel hlo, Char.ofNat_toNat, h] at hnone
    cases hnone
  · rw [hspaces c hmem] at h
    cases h

/-- A text that trimming changes is not a number. -/
theorem parse_eq_none_of_trim_ne {cs : List Char} (h : trim cs ≠ cs) : parse cs = none := by
  obtain ⟨c, hc, hspace⟩ := exists_whitespace_of_trim_ne h
  cases hparse : parse cs with
  | none => rfl
  | some x => exact absurd (spelt_of_parse hparse c hc) (not_mem_alphabet_of_isWhitespace hspace)

theorem numeral_of_natural {cs : List Char} {n : Nat} (h : natural cs = some n) :
    numeral cs = some { mantissa := n, exponent := 0 } := by
  have hdigits := isDigit_of_natural h
  have hwhole : cs.takeWhile isDigit = cs := List.takeWhile_eq_self_iff.mpr hdigits
  have hrest : cs.dropWhile isDigit = [] := List.dropWhile_eq_nil_iff.mpr hdigits
  rw [natural] at h
  split at h
  · rename_i hne
    cases h
    simp [numeral, hwhole, hrest, hne.1, exponentPart]
  · cases h

private theorem natural_of_map {cs : List Char} {f : Int → Int} {n : Int}
    (h : Option.map f (natural cs : Option Int) = some n) :
    ∃ k : Nat, natural cs = some k ∧ n = f k := by
  cases hk : natural cs with
  | none =>
      rw [hk] at h
      cases h
  | some k =>
      rw [hk] at h
      exact ⟨k, rfl, (Option.some.inj h).symm⟩

/-- An integer is a sequence of digits behind its sign. -/
theorem exists_natural_of_signed {cs : List Char} {n : Int} (h : signed cs = some n) :
    ∃ k : Nat, natural (splitSign cs).2 = some k ∧
      n = if (splitSign cs).1 then (-k : Int) else k := by
  unfold signed at h
  split at h
  · obtain ⟨k, hk, hn⟩ := Option.map_eq_some_iff.mp h
    exact ⟨k, hk, hn.symm⟩
  · rename_i hminus
    unfold unsigned at h
    split at h
    · exact natural_of_map h
    · rename_i hplus
      have hbody : splitSign cs = (false, cs) := by
        unfold splitSign
        split
        · exact absurd rfl (hminus _)
        · exact absurd rfl (hplus _)
        · rfl
      rw [hbody]
      exact natural_of_map h

/-- Whatever is an integer is a number. -/
theorem isSome_parse_of_signed {cs : List Char} {n : Int} (h : signed cs = some n) :
    (parse cs).isSome = true := by
  obtain ⟨k, hk, _⟩ := exists_natural_of_signed h
  cases hparse : parse cs with
  | some x => rfl
  | none =>
      have hnone : ((numeral (splitSign cs).2).map Numeral.toFloat).or (word (splitSign cs).2) =
          none := Option.map_eq_none_iff.mp hparse
      rw [numeral_of_natural hk] at hnone
      cases hnone

/-! ## Numerals and the names of other values -/

/-- A numeral behind an optional sign, and whether this is a minus. -/
def signedNumeral (cs : List Char) : Option (Bool × Numeral) :=
  (numeral (splitSign cs).2).map fun n => ((splitSign cs).1, n)

/-- The text is the name of an infinity or of NaN behind an optional sign. -/
def namesNonFinite (cs : List Char) : Bool :=
  (word (splitSign cs).2).isSome

section Signed

variable {cs : List Char} {negative : Bool} {n : Numeral}

theorem parse_of_signedNumeral (h : signedNumeral cs = some (negative, n)) :
    parse cs = some (if negative then -n.toFloat else n.toFloat) := by
  obtain ⟨m, hm, heq⟩ := Option.map_eq_some_iff.mp h
  cases heq
  change (((numeral (splitSign cs).2).map Numeral.toFloat).or (word (splitSign cs).2)).map
    (fun x => if (splitSign cs).1 then -x else x) = _
  rw [hm]
  rfl

/-- An integer is the numeral of its digits. -/
theorem signedNumeral_of_signed {k : Int} (h : signed cs = some k) :
    ∃ (negative : Bool) (m : Nat),
      signedNumeral cs = some (negative, { mantissa := m, exponent := 0 }) ∧
        k = if negative then (-m : Int) else m := by
  obtain ⟨m, hm, hk⟩ := exists_natural_of_signed h
  refine ⟨_, m, ?_, hk⟩
  rw [signedNumeral, numeral_of_natural hm]
  rfl

private theorem eqIgnoreAsciiCase_of_word {x : F64} (h : word cs = some x) :
    ∃ name ∈ [['n', 'a', 'n'], ['i', 'n', 'f'], ['i', 'n', 'f', 'i', 'n', 'i', 't', 'y']],
      cs.map asciiLower = name := by
  rw [word] at h
  split at h
  · rename_i hnan
    exact ⟨_, by decide, eqIgnoreAsciiCase_iff.mp hnan⟩
  · split at h
    · rename_i hinfinity
      rcases Bool.or_eq_true_iff.mp hinfinity with heq | heq
      · exact ⟨_, by decide, eqIgnoreAsciiCase_iff.mp heq⟩
      · exact ⟨_, by decide, eqIgnoreAsciiCase_iff.mp heq⟩
    · cases h

/-- No numeral begins with a letter. -/
theorem signedNumeral_of_namesNonFinite (h : namesNonFinite cs = true) :
    signedNumeral cs = none := by
  obtain ⟨x, hx⟩ := Option.isSome_iff_exists.mp h
  obtain ⟨name, hname, hlower⟩ := eqIgnoreAsciiCase_of_word hx
  have hletters : ∀ name ∈ [['n', 'a', 'n'], ['i', 'n', 'f'],
      ['i', 'n', 'f', 'i', 'n', 'i', 't', 'y']], ∃ c ds, name = c :: ds ∧ c ∈ ['n', 'i'] := by
    simp
  have hother : ∀ c ∈ "0123456789.".toList, asciiLower c ∉ ['n', 'i'] := by decide
  obtain ⟨d, ds, rfl, hd⟩ := hletters name hname
  obtain ⟨c, cs', hbody, rfl, _⟩ := List.map_eq_cons_iff.mp hlower
  have hdigit : isDigit c = false := by
    rw [Bool.eq_false_iff]
    intro hdigit
    have hmem : "0123456789".toList ⊆ "0123456789.".toList := by decide
    exact hother c (hmem (isDigit_cases hdigit)) hd
  have hpoint : c ≠ '.' := by
    rintro rfl
    exact hother '.' (by decide) hd
  have hwhole : (c :: cs').takeWhile isDigit = [] := List.takeWhile_cons_of_neg (by simp [hdigit])
  have hrest : (c :: cs').dropWhile isDigit = c :: cs' :=
    List.dropWhile_cons_of_neg (by simp [hdigit])
  rw [signedNumeral, hbody, numeral, hwhole, hrest]
  simp [hpoint]

theorem parse_of_namesNonFinite (h : namesNonFinite cs = true) :
    ∃ x, parse cs = some x ∧ x.isFinite = false := by
  have hnone : numeral (splitSign cs).2 = none :=
    Option.map_eq_none_iff.mp (signedNumeral_of_namesNonFinite h)
  obtain ⟨x, hx⟩ := Option.isSome_iff_exists.mp h
  have hparse : parse cs = some (if (splitSign cs).1 then -x else x) := by
    change (((numeral (splitSign cs).2).map Numeral.toFloat).or (word (splitSign cs).2)).map
      (fun x => if (splitSign cs).1 then -x else x) = _
    rw [hnone, hx]
    rfl
  have hvalues : x = 0 / 0 ∨ x = 1 / 0 := by
    rw [word] at hx
    split at hx
    · exact .inl (Option.some.inj hx).symm
    · split at hx
      · exact .inr (Option.some.inj hx).symm
      · cases hx
  refine ⟨_, hparse, ?_⟩
  cases (splitSign cs).1 <;> rcases hvalues with rfl | rfl <;> decide

theorem parse_eq_none (hnumeral : signedNumeral cs = none) (hname : namesNonFinite cs = false) :
    parse cs = none := by
  have hnumeral : numeral (splitSign cs).2 = none := Option.map_eq_none_iff.mp hnumeral
  have hname : word (splitSign cs).2 = none := Option.not_isSome_iff_eq_none.mp (by
    rw [Bool.not_eq_true]
    exact hname)
  change (((numeral (splitSign cs).2).map Numeral.toFloat).or (word (splitSign cs).2)).map
    (fun x => if (splitSign cs).1 then -x else x) = none
  rw [hnumeral, hname]
  rfl

end Signed

end Decimal

end CeQuery
