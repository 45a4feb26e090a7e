import NodalMerge.Crdt.Policy
import Mathlib.Data.List.Basic

/-! The matcher works on bytes, the documented language is over characters. -/

namespace NodalMerge.Glob

open List String

/-- What stands in a glob. A run of stars is read from the left, two at a time. -/
inductive Token where
  | doubleStar
  | star
  | literal (char : Char)

def tokens : List Char → List Token
  | '*' :: '*' :: rest => .doubleStar :: tokens rest
  | '*' :: rest => .star :: tokens rest
  | char :: rest => .literal char :: tokens rest
  | [] => []

/-- The keys that the documentation describes. -/
inductive Language : List Token → List Char → Prop
  | nil : Language [] []
  | doubleStar (taken : List Char) {glob : List Token} {rest : List Char}
      (follows : Language glob rest) : Language (.doubleStar :: glob) (taken ++ rest)
  | star (taken : List Char) (inSegment : '/' ∉ taken) {glob : List Token} {rest : List Char}
      (follows : Language glob rest) : Language (.star :: glob) (taken ++ rest)
  | literal {char : Char} {glob : List Token} {rest : List Char} (follows : Language glob rest) :
      Language (.literal char :: glob) (char :: rest)

/-- A separator stands right behind a double star. -/
def SkipsSeparator : List Char → Prop
  | '*' :: '*' :: '/' :: _ => True
  | '*' :: '*' :: rest => SkipsSeparator rest
  | _ :: rest => SkipsSeparator rest
  | [] => False

/-- The tokens that the matcher goes by. -/
def skipped : List Char → List Token
  | '*' :: '*' :: '/' :: rest => .doubleStar :: skipped rest
  | '*' :: '*' :: rest => .doubleStar :: skipped rest
  | '*' :: rest => .star :: skipped rest
  | char :: rest => .literal char :: skipped rest
  | [] => []

abbrev encoded (chars : List Char) : List UInt8 := chars.flatMap String.utf8EncodeChar

/-- A byte inside the encoding of a character. -/
def Inner (byte : UInt8) : Prop := 128 ≤ byte.toNat ∧ byte.toNat < 192

theorem encodeChar_cases (char : Char) : ∃ byte inner, String.utf8EncodeChar char = byte :: inner ∧
    (∀ other ∈ inner, Inner other) ∧ ¬ Inner byte ∧
    (byte.toNat < 128 → char.toNat = byte.toNat) := by
  fun_cases String.utf8EncodeChar char with
  | case1 value small =>
    have code : char.val.toNat = char.toNat := rfl
    exact ⟨_, _, rfl, by simp, by simp [Inner]; omega, by simp; omega⟩
  | case2 value _ small =>
    exact ⟨_, _, rfl, by simp [Inner]; omega, by simp [Inner]; omega, by simp; omega⟩
  | case3 value _ _ small =>
    exact ⟨_, _, rfl, by simp [Inner]; omega, by simp [Inner]; omega, by simp; omega⟩
  | case4 value _ _ _ =>
    exact ⟨_, _, rfl, by simp [Inner]; omega, by simp [Inner]; omega, by simp; omega⟩

theorem encodeChar_append_inj
    (same : String.utf8EncodeChar char ++ rest = String.utf8EncodeChar other ++ others) :
    char = other ∧ rest = others := by
  have decoded (char : Char) (rest : List UInt8) :
      (String.utf8EncodeChar char ++ rest).toByteArray.utf8DecodeChar? 0 = some char := by
    rw [List.toByteArray_append]
    exact ByteArray.utf8DecodeChar?_utf8EncodeChar_append
  have equal := decoded char rest
  rw [same, decoded] at equal
  obtain rfl := Option.some.inj equal
  exact ⟨rfl, append_cancel_left same⟩

/-- An ASCII byte stands for its character only. -/
theorem mem_encodeChar {char ascii : Char} {byte : UInt8} (code : ascii.toNat = byte.toNat)
    (small : byte.toNat < 128) (inside : byte ∈ String.utf8EncodeChar char) : char = ascii := by
  obtain ⟨first, inner, encodes, all, -, known⟩ := encodeChar_cases char
  rw [encodes] at inside
  obtain rfl | within := mem_cons.mp inside
  · exact Char.toNat_inj.mp ((known small).trans code.symm)
  · exact absurd (all byte within).1 (by omega)

theorem head_encoded {pat : List Char} {ascii : Char} {byte : UInt8} {later : List UInt8}
    (code : ascii.toNat = byte.toNat) (small : byte.toNat < 128)
    (same : encoded pat = byte :: later) : ∃ rest, pat = ascii :: rest := by
  cases pat with
  | nil => cases same
  | cons first rest =>
    obtain ⟨other, inner, encodes, -⟩ := encodeChar_cases first
    rw [encoded, flatMap_cons, encodes] at same
    have head : byte ∈ String.utf8EncodeChar first := by
      rw [encodes, (cons.inj same).1]
      exact mem_cons_self
    exact ⟨rest, by rw [mem_encodeChar code small head]⟩

/-- The scan of both stars: on past the bytes that do not stop it. -/
def scanUntil (stops : UInt8 → Bool) (rest : List UInt8 → Bool) : List UInt8 → Bool
  | [] => rest []
  | byte :: txt => rest (byte :: txt) || (!stops byte && scanUntil stops rest txt)

/-- The rest of a glob matches inside a character only if it matches behind it as well. -/
def Resumes (rest : List UInt8 → Bool) : Prop :=
  ∀ byte inner txt, (∀ other ∈ byte :: inner, Inner other) →
    rest (byte :: inner ++ txt) = true → rest txt = true

theorem doubleStarScan_eq : doubleStarScan rest = scanUntil (fun _ => false) rest := by
  funext txt
  induction txt with
  | nil => rfl
  | cons byte txt ih => simp [doubleStarScan, scanUntil, ih]

theorem starScan_eq : starScan rest = scanUntil (· == 47) rest := by
  funext txt
  induction txt with
  | nil => rfl
  | cons byte txt ih => simp [starScan, scanUntil, ih, bne]

theorem scanUntil_of_rest {front txt : List UInt8} (passes : ∀ byte ∈ front, stops byte = false)
    (here : rest txt = true) : scanUntil stops rest (front ++ txt) = true := by
  induction front with
  | nil => cases txt <;> simp_all [scanUntil]
  | cons byte front ih =>
    obtain ⟨first, later⟩ := forall_mem_cons.mp passes
    simp [scanUntil, first, ih later]

section
variable (resumes : Resumes rest)
include resumes

theorem scanUntil_inner {inner : List UInt8} (all : ∀ other ∈ inner, Inner other)
    (found : scanUntil stops rest (inner ++ txt) = true) : scanUntil stops rest txt = true := by
  induction inner with
  | nil => exact found
  | cons byte inner ih =>
    rw [cons_append, scanUntil, Bool.or_eq_true, Bool.and_eq_true] at found
    obtain here | ⟨-, beyond⟩ := found
    · exact @scanUntil_of_rest _ _ [] _ (by simp) (resumes byte inner txt all here)
    · exact ih (forall_mem_cons.mp all).2 beyond

/-- A scan takes whole characters. -/
theorem scanUntil_iff (passes : ∀ byte, Inner byte → stops byte = false) (txt : List Char) :
    scanUntil stops rest (encoded txt) = true ↔
      ∃ taken later, txt = taken ++ later ∧ (∀ byte ∈ encoded taken, stops byte = false) ∧
        rest (encoded later) = true := by
  constructor
  · intro found
    induction txt with
    | nil => exact ⟨[], [], rfl, by simp, found⟩
    | cons char txt ih =>
      obtain ⟨byte, inner, encodes, all, -⟩ := encodeChar_cases char
      rw [encoded, flatMap_cons, encodes, cons_append, scanUntil, Bool.or_eq_true,
        Bool.and_eq_true, Bool.not_eq_true'] at found
      obtain here | ⟨first, beyond⟩ := found
      · exact ⟨[], char :: txt, rfl, by simp, by rwa [encoded, flatMap_cons, encodes]⟩
      · obtain ⟨taken, later, rfl, passed, here⟩ := ih (scanUntil_inner resumes all beyond)
        refine ⟨char :: taken, later, rfl, ?_, here⟩
        rw [encoded, flatMap_cons, encodes]
        exact forall_mem_cons.mpr ⟨first, forall_mem_append.mpr
          ⟨fun other inside => passes other (all other inside), passed⟩⟩
  · rintro ⟨taken, later, rfl, passed, here⟩
    rw [encoded, flatMap_append]
    exact scanUntil_of_rest passed here

theorem Resumes.scan : Resumes (scanUntil stops rest) :=
  fun _ _ _ all found => scanUntil_inner resumes all found

end

/-- A matcher of the rest of a key reads the tokens of a glob. -/
structure Reads (rest : List UInt8 → Bool) (glob : List Token) : Prop where
  resumes : Resumes rest
  iff : ∀ txt, rest (encoded txt) = true ↔ Language glob txt

section

theorem language_doubleStar_iff : Language (.doubleStar :: glob) txt ↔
    ∃ taken later, txt = taken ++ later ∧ Language glob later := by
  constructor
  · rintro (_ | ⟨taken, follows⟩)
    exact ⟨taken, _, rfl, follows⟩
  · rintro ⟨taken, later, rfl, follows⟩
    exact .doubleStar taken follows

theorem language_star_iff : Language (.star :: glob) txt ↔
    ∃ taken later, txt = taken ++ later ∧ '/' ∉ taken ∧ Language glob later := by
  constructor
  · rintro (_ | _ | ⟨taken, inSegment, follows⟩)
    exact ⟨taken, _, rfl, inSegment, follows⟩
  · rintro ⟨taken, later, rfl, inSegment, follows⟩
    exact .star taken inSegment follows

theorem Reads.doubleStar (reads : Reads rest glob) :
    Reads (doubleStarScan rest) (.doubleStar :: glob) := by
  rw [doubleStarScan_eq]
  refine ⟨reads.resumes.scan, fun txt => ?_⟩
  rw [scanUntil_iff reads.resumes fun _ _ => rfl, language_doubleStar_iff]
  simp only [reads.iff, implies_true, true_and]

theorem Reads.star (reads : Reads rest glob) : Reads (starScan rest) (.star :: glob) := by
  have segment (taken : List Char) :
      (∀ byte ∈ encoded taken, (byte == 47) = false) ↔ '/' ∉ taken := by
    constructor
    · intro passes inside
      exact absurd (passes 47 (mem_flatMap.mpr ⟨'/', inside, by decide⟩)) (by decide)
    · intro outside byte inside
      refine beq_eq_false_iff_ne.mpr fun slash => ?_
      obtain ⟨char, member, here⟩ := mem_flatMap.mp (slash ▸ inside)
      exact outside (@mem_encodeChar char '/' 47 rfl (by decide) here ▸ member)
  rw [starScan_eq]
  refine ⟨reads.resumes.scan, fun txt => ?_⟩
  rw [scanUntil_iff reads.resumes fun byte inner => beq_eq_false_iff_ne.mpr fun slash => ?_,
    language_star_iff]
  · simp only [reads.iff, segment]
  · rw [slash] at inner
    exact absurd inner.1 (by decide)

end

/-- Bytes that are no star stand for themselves. -/
theorem globMatchesInner_literal {bytes : List UInt8} (plain : 42 ∉ bytes) :
    globMatchesInner (bytes ++ pat) txt = true ↔
      ∃ later, txt = bytes ++ later ∧ globMatchesInner pat later = true := by
  induction bytes generalizing txt with
  | nil => simp
  | cons byte bytes ih =>
    obtain ⟨apart, plain⟩ := not_or.mp (mem_cons.not.mp plain)
    have step : globMatchesInner (byte :: (bytes ++ pat)) txt =
        match txt with
        | [] => false
        | first :: txt => first == byte && globMatchesInner (bytes ++ pat) txt := by
      rw [globMatchesInner.eq_def]
      split <;> simp_all
    rw [cons_append, step]
    cases txt with
    | nil => simp
    | cons first txt =>
      rw [Bool.and_eq_true, beq_iff_eq, ih plain]
      grind

section

theorem globMatchesInner_doubleStar (apart : ∀ rest, pat = '/' :: rest → False) :
    globMatchesInner (encoded ('*' :: '*' :: pat)) =
      doubleStarScan (globMatchesInner (encoded pat)) := by
  funext txt
  refine globMatchesInner.eq_3 txt (encoded pat) fun later same => ?_
  obtain ⟨rest, rfl⟩ := @head_encoded pat '/' 47 later rfl (by decide) same
  exact apart rest rfl

theorem globMatchesInner_star (apart : ∀ rest, pat = '*' :: rest → False) :
    globMatchesInner (encoded ('*' :: pat)) = starScan (globMatchesInner (encoded pat)) := by
  funext txt
  have single (later : List UInt8) (same : encoded pat = 42 :: later) : False := by
    obtain ⟨rest, rfl⟩ := @head_encoded pat '*' 42 later rfl (by decide) same
    exact apart rest rfl
  exact globMatchesInner.eq_4 txt (encoded pat) (fun later => single (47 :: later)) single

theorem globMatchesInner_char (apart : char ≠ '*') (txt : List UInt8) :
    globMatchesInner (encoded (char :: pat)) txt = true ↔
      ∃ later, txt = String.utf8EncodeChar char ++ later ∧
        globMatchesInner (encoded pat) later = true :=
  globMatchesInner_literal fun star => apart (mem_encodeChar rfl (by decide) star)

end

/-- The matcher goes by the tokens without the separators. -/
theorem reads_globMatchesInner (pat : List Char) :
    Reads (globMatchesInner (encoded pat)) (skipped pat) := by
  fun_induction skipped pat with
  | case1 rest ih => exact ih.doubleStar
  | case2 rest apart ih =>
    rw [globMatchesInner_doubleStar apart]
    exact ih.doubleStar
  | case3 rest _ apart ih =>
    rw [globMatchesInner_star apart]
    exact ih.star
  | case4 char rest _ _ apart ih =>
    refine ⟨fun byte inner txt all found => ?_, fun txt => ?_⟩
    · obtain ⟨behind, same, -⟩ := (globMatchesInner_char apart _).mp found
      obtain ⟨head, tail, encodes, -, outer, -⟩ := encodeChar_cases char
      rw [encodes] at same
      exact absurd ((cons.inj same).1 ▸ all byte mem_cons_self) outer
    · rw [globMatchesInner_char apart]
      constructor
      · rintro ⟨later, same, matched⟩
        cases txt with
        | nil => exact absurd (append_eq_nil_iff.mp same.symm).1 utf8EncodeChar_ne_nil
        | cons first txt =>
          obtain ⟨rfl, rfl⟩ := encodeChar_append_inj same
          exact .literal ((ih.iff txt).mp matched)
      · rintro (_ | _ | _ | follows)
        exact ⟨_, rfl, (ih.iff _).mpr follows⟩
  | case5 =>
    refine ⟨fun byte inner txt all found => (by cases found), fun txt => ?_⟩
    cases txt with
    | nil => exact iff_of_true rfl .nil
    | cons char txt =>
      refine iff_of_false (fun found => ?_) nofun
      exact utf8EncodeChar_ne_nil
        (append_eq_nil_iff.mp (List.isEmpty_iff.mp found)).1

/-- The characters that every key of the language has. -/
def literals (glob : List Token) : List Char :=
  glob.filterMap fun | .literal char => some char | _ => none

theorem language_literals (glob : List Token) : Language glob (literals glob) := by
  induction glob with
  | nil => exact .nil
  | cons token glob ih =>
    cases token with
    | doubleStar => exact .doubleStar [] ih
    | star => exact .star [] not_mem_nil ih
    | literal char => exact .literal ih

theorem Language.literals_sublist (language : Language glob key) :
    (literals glob).Sublist key := by
  induction language with
  | nil => exact .slnil
  | doubleStar taken _ ih => exact ih.trans (sublist_append_right ..)
  | star taken _ _ ih => exact ih.trans (sublist_append_right ..)
  | literal _ ih => exact ih.cons_cons _

theorem skipped_cases (pat : List Char) : ¬ SkipsSeparator pat ∧ skipped pat = tokens pat ∨
    SkipsSeparator pat ∧ (literals (skipped pat)).length < (literals (tokens pat)).length := by
  fun_induction skipped pat with
  | case1 rest ih =>
    have fewer : (literals (skipped rest)).length ≤ (literals (tokens rest)).length := by
      obtain ⟨-, same⟩ | ⟨-, fewer⟩ := ih
      · rw [same]
      · exact fewer.le
    exact .inr ⟨trivial, Nat.lt_succ_of_le fewer⟩
  | case2 rest apart ih => simpa [SkipsSeparator, tokens, literals] using ih
  | case3 rest _ apart ih =>
    have step : SkipsSeparator ('*' :: rest) = SkipsSeparator rest := by
      rw [SkipsSeparator] <;> simp_all
    simpa [step, tokens, literals] using ih
  | case4 char rest _ _ apart ih => simpa [SkipsSeparator, tokens, literals, apart] using ih
  | case5 => exact .inl ⟨id, rfl⟩

/-- The matcher agrees with the documentation on every key exactly for the globs without
a separator right behind a double star. -/
theorem glob_matches_documented_iff (pattern : String) :
    (∀ key : String, globMatches pattern key = true ↔
      Language (tokens pattern.toList) key.toList) ↔ ¬ SkipsSeparator pattern.toList := by
  have matched (key : String) := (reads_globMatchesInner pattern.toList).iff key.toList
  obtain ⟨plain, same⟩ | ⟨skips, fewer⟩ := skipped_cases pattern.toList
  · refine iff_of_true (fun key => ?_) plain
    rw [← same]
    exact matched key
  · refine iff_of_false (fun agrees => ?_) (not_not_intro skips)
    -- The shortest key that the matcher accepts lacks the separator.
    obtain ⟨key, isKey⟩ : ∃ key : String, key.toList = literals (skipped pattern.toList) :=
      ⟨.ofList _, toList_ofList⟩
    have accepted := (matched key).mpr (isKey ▸ language_literals _)
    have long := ((agrees key).mp accepted).literals_sublist.length_le
    rw [isKey] at long
    exact absurd long (not_le.mpr fewer)

theorem separator_behind_double_star_is_skipped :
    (globMatches "**/msg" "msg" = true ∧ ¬ Language (tokens "**/msg".toList) "msg".toList) ∧
      globMatches "**/msg" "xmsg" = true ∧ ¬ Language (tokens "**/msg".toList) "xmsg".toList := by
  refine ⟨⟨by decide, fun language => ?_⟩, by decide, fun language => ?_⟩
  all_goals exact absurd language.literals_sublist (by decide)

end NodalMerge.Glob
