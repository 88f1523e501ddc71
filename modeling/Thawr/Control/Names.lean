/-
  Thawr.Control.Names — names of peers (`internal/control/ids.go`, `internal/control/names.go`).

  A peer's name is a DNS label other than the hub's. A device that asks for no name gets its
  host name, made a label (`sanitizeName`); a name that is taken or reserved is numbered
  (`uniqueName`).
-/

import Thawr.Go.Runes

namespace Thawr.Control

open Go

def alnum (c : UInt8) : Bool := (97 ≤ c && c ≤ 122) || isDigit c

def hubName : Str := str "hub"

/-- `validLabel`: `[a-z0-9]([a-z0-9-]{0,61}[a-z0-9])?`. -/
def validLabel : Str → Bool
  | [] => false
  | c :: s =>
    alnum c && (s.isEmpty || (s.dropLast.all (fun c => alnum c || c == 45) && s.dropLast.length ≤ 61 && s.getLast?.any alnum))

def validPeerName (s : Str) : Bool := validLabel s && s != hubName

/-- The loop of `SanitizeName`: what is no letter or digit becomes a hyphen, one for several. A
    rune outside ASCII is several bytes, none of them a letter. -/
def sanitize (lastDash : Bool) : Str → Str
  | [] => []
  | c :: s => if alnum c then c :: sanitize false s else if lastDash then sanitize true s else 45 :: sanitize true s

def trimDashes (s : Str) : Str := (s.reverse.dropWhile (· == 45)).reverse

def sanitizeName (hostname : Str) : Str :=
  let name := trimDashes (sanitize true (toLower hostname))
  let name := if 63 < name.length then trimDashes (name.take 63) else name
  if name.isEmpty then str "peer" else name

def candidate (base : Str) (i : Nat) : Str :=
  let suffix := 45 :: decimal i
  if 63 < (base ++ suffix).length then base.take (63 - suffix.length) ++ suffix else base ++ suffix

/-- `uniqueName`: the base if it is free, else the first candidate from 2 to 9999. -/
def uniqueName (taken : List Str) (base : Str) (reserved : Str → Bool) : Option Str :=
  let free (n : Str) := !taken.contains n && !reserved n
  if free base then some base else ((List.range' 2 9998).map (candidate base)).find? free

/-! ## Labels -/

/-- Letters, digits and hyphens, with a letter or digit first. -/
def Starts (s : Str) : Prop := (∀ c ∈ s, alnum c = true ∨ c = 45) ∧ s.head?.all alnum = true

/-- The same, with one last too. -/
def Bounded (s : Str) : Prop := Starts s ∧ s.getLast?.all alnum = true

theorem validLabel_iff {s : Str} : validLabel s = true ↔ s ≠ [] ∧ Bounded s ∧ s.length ≤ 63 := by
  cases s with
  | nil => simp [validLabel]
  | cons c s =>
    induction s using List.reverseRecOn with
    | nil => simpa [validLabel, Bounded, Starts] using fun h => Or.inl h
    | append_singleton l d _ =>
      have hlast : (c :: (l ++ [d])).getLast? = some d := by
        rw [← List.cons_append, List.getLast?_concat]
      have hne : (l ++ [d]).isEmpty = false := by simp
      simp only [validLabel, Bounded, Starts, hlast, hne, List.dropLast_concat, List.getLast?_concat, List.head?_cons,
        Option.all_some, Option.any_some, Bool.false_or, Bool.and_eq_true, List.all_eq_true, Bool.or_eq_true, beq_iff_eq,
        decide_eq_true_eq, List.forall_mem_cons, List.forall_mem_append, List.length_cons, List.length_append, List.length_nil,
        List.not_mem_nil, false_imp_iff, implies_true, and_true, ne_eq, reduceCtorEq, not_false_eq_true, true_and]
      grind

/-- A label has no upper case to fold. -/
theorem toLower_label {s : Str} (h : validLabel s = true) : toLower s = s := by
  obtain ⟨-, ⟨⟨hs, -⟩, -⟩, -⟩ := validLabel_iff.mp h
  have hbyte : ∀ c ∈ s, c.toNat < 128 ∧ lowerByte c = c := by
    intro c hc
    have hcase : (97 ≤ c.toNat ∧ c.toNat ≤ 122) ∨ (48 ≤ c.toNat ∧ c.toNat ≤ 57) ∨ c.toNat = 45 := by
      rcases hs c hc with hc | rfl
      · simp only [alnum, isDigit, Bool.or_eq_true, Bool.and_eq_true, decide_eq_true_eq, UInt8.le_iff_toNat_le,
          UInt8.reduceToNat] at hc
        omega
      · decide
    refine ⟨by omega, if_neg ?_⟩
    simp only [UInt8.le_iff_toNat_le, UInt8.reduceToNat]
    omega
  rw [toLower_ascii fun c hc => (hbyte c hc).1]
  exact (List.map_congr_left fun c hc => (hbyte c hc).2).trans (List.map_id' s)

theorem Starts.take {s : Str} (h : Starts s) (n : Nat) : Starts (s.take n) := by
  refine ⟨fun c hc => h.1 c (List.mem_of_mem_take hc), ?_⟩
  cases n with
  | zero => simp
  | succ n =>
    cases s with
    | nil => simp
    | cons c s => exact h.2

/-! ## Names from host names -/

theorem sanitize_starts (s : Str) : ∀ lastDash, (∀ c ∈ sanitize lastDash s, alnum c = true ∨ c = 45) ∧
    (lastDash = true → (sanitize lastDash s).head?.all alnum = true) := by
  induction s with
  | nil =>
    intro lastDash
    simp [sanitize]
  | cons c s ih =>
    intro lastDash
    unfold sanitize
    by_cases hc : alnum c = true
    · rw [if_pos hc]
      refine ⟨List.forall_mem_cons.mpr ⟨.inl hc, (ih false).1⟩, fun _ => ?_⟩
      simpa using hc
    · rw [if_neg hc]
      cases lastDash with
      | true => exact ih true
      | false => exact ⟨List.forall_mem_cons.mpr ⟨.inr rfl, (ih true).1⟩, by simp⟩

theorem trimDashes_begins (s : Str) : trimDashes s <+: s := by
  unfold trimDashes
  rw [← List.reverse_suffix, List.reverse_reverse]
  exact List.dropWhile_suffix _

/-- Without its last hyphens a text ends in a letter or digit. -/
theorem trimDashes_bounded {s : Str} (h : Starts s) : Bounded (trimDashes s) ∧ (trimDashes s).length ≤ s.length := by
  have hsub := trimDashes_begins s
  have htake : trimDashes s = s.take (trimDashes s).length := List.prefix_iff_eq_take.mp hsub
  refine ⟨⟨htake ▸ h.take _, ?_⟩, hsub.length_le⟩
  unfold trimDashes
  rw [List.getLast?_reverse]
  cases hd : (s.reverse.dropWhile (· == 45)).head? with
  | none => rfl
  | some c =>
    have hne := List.head?_dropWhile_not (· == 45) s.reverse
    rw [hd] at hne
    have hmem : c ∈ s.reverse := (List.dropWhile_suffix (· == 45)).subset (List.mem_of_head? hd)
    rcases h.1 c (List.mem_reverse.mp hmem) with hc | hc
    · simpa using hc
    · simp [hc] at hne

theorem sanitizeName_valid (hostname : Str) : validLabel (sanitizeName hostname) = true := by
  have hstarts : Starts (sanitize true (toLower hostname)) := ⟨(sanitize_starts _ true).1, (sanitize_starts _ true).2 rfl⟩
  have hfirst := trimDashes_bounded hstarts
  unfold sanitizeName
  simp only
  by_cases hlong : 63 < (trimDashes (sanitize true (toLower hostname))).length
  · rw [if_pos hlong]
    have hcut := trimDashes_bounded (hfirst.1.1.take 63)
    split
    · decide
    · rename_i hne
      refine validLabel_iff.mpr ⟨by simpa using hne, hcut.1, Nat.le_trans hcut.2 ?_⟩
      simp
  · rw [if_neg hlong]
    split
    · decide
    · rename_i hne
      exact validLabel_iff.mpr ⟨by simpa using hne, hfirst.1, by omega⟩

/-! A name made of a host name is one that `SanitizeName` leaves as it is. -/

/-- No two hyphens in a row are written. -/
theorem sanitize_spaced (s : Str) : ∀ lastDash, ¬[45, 45] <:+: sanitize lastDash s := by
  induction s with
  | nil =>
    intro lastDash
    simp [sanitize]
  | cons c s ih =>
    intro lastDash
    unfold sanitize
    split_ifs with hc hlast
    · rw [List.infix_cons_iff]
      rintro (hpre | hinf)
      · rw [← (List.cons_prefix_cons.mp hpre).1] at hc
        exact absurd hc (by decide)
      · exact ih _ hinf
    · exact ih _
    · rw [List.infix_cons_iff]
      rintro (hpre | hinf)
      · -- after a hyphen comes a letter or a digit
        have hfirst := (sanitize_starts s true).2 rfl
        obtain ⟨t, ht⟩ := (List.cons_prefix_cons.mp hpre).2
        rw [← ht] at hfirst
        exact absurd (show alnum 45 = true from hfirst) (by decide)
      · exact ih _ hinf

/-- The loop copies what it could have written. -/
theorem sanitize_fixed {s : Str} (hs : ∀ c ∈ s, alnum c = true ∨ c = 45) (hspaced : ¬[45, 45] <:+: s) :
    ∀ lastDash, (lastDash = true → s.head?.all alnum = true) → sanitize lastDash s = s := by
  induction s with
  | nil =>
    intro lastDash _
    rfl
  | cons c s ih =>
    intro lastDash hfirst
    have hcopy := ih (fun d hd => hs d (List.mem_cons_of_mem _ hd)) fun h => hspaced (List.infix_cons h)
    rcases hs c List.mem_cons_self with hc | rfl
    · rw [sanitize, if_pos hc, hcopy false (fun h => by cases h)]
    · cases lastDash with
      | true => exact absurd (show alnum 45 = true from hfirst rfl) (by decide)
      | false =>
        rw [sanitize, if_neg (by decide), if_neg (by decide), hcopy true ?_]
        intro _
        cases s with
        | nil => rfl
        | cons d s =>
          rcases hs d (by simp) with hd | rfl
          · exact hd
          · exact absurd ⟨[], s, rfl⟩ hspaced

theorem trimDashes_fixed {s : Str} (h : Bounded s) : trimDashes s = s := by
  induction s using List.reverseRecOn with
  | nil => rfl
  | append_singleton l c _ =>
    have hlast := h.2
    rw [List.getLast?_concat] at hlast
    have hc : (c == 45) = false := by
      rw [beq_eq_false_iff_ne]
      rintro rfl
      exact absurd hlast (by decide)
    unfold trimDashes
    rw [List.reverse_concat, List.dropWhile_cons_of_neg (by rw [hc]; decide), ← List.reverse_concat, List.reverse_reverse]

/-- A name that is not the default is what the loop wrote first. -/
theorem sanitizeName_begins (hostname : Str) :
    sanitizeName hostname = str "peer" ∨ sanitizeName hostname <+: sanitize true (toLower hostname) := by
  unfold sanitizeName
  simp only
  split_ifs
  · exact .inl rfl
  · exact .inr (((trimDashes_begins _).trans (List.take_prefix _ _)).trans (trimDashes_begins _))
  · exact .inl rfl
  · exact .inr (trimDashes_begins _)

theorem sanitizeName_spaced (hostname : Str) : ¬[45, 45] <:+: sanitizeName hostname := by
  rcases sanitizeName_begins hostname with h | h
  · rw [h]
    decide
  · exact fun hinf => sanitize_spaced _ _ (hinf.trans h.isInfix)

theorem sanitizeName_fixed {s : Str} (h : validLabel s = true) (hspaced : ¬[45, 45] <:+: s) : sanitizeName s = s := by
  obtain ⟨hne, hb, hlen⟩ := validLabel_iff.mp h
  unfold sanitizeName
  simp only
  rw [toLower_label h, sanitize_fixed hb.1.1 hspaced true fun _ => hb.1.2, trimDashes_fixed hb,
    if_neg (show ¬63 < s.length by omega), if_neg (by simpa using hne)]

/-- Every byte string becomes a label without two hyphens in a row, and stays that label. -/
theorem sanitizeName_label (hostname : Str) : validLabel (sanitizeName hostname) = true ∧
    ¬[45, 45] <:+: sanitizeName hostname ∧ sanitizeName (sanitizeName hostname) = sanitizeName hostname :=
  ⟨sanitizeName_valid hostname, sanitizeName_spaced hostname,
    sanitizeName_fixed (sanitizeName_valid hostname) (sanitizeName_spaced hostname)⟩

/-! ## Runes

`SanitizeName` goes over the runes of the lower-case text. It writes what `sanitize` writes for the
bytes, whatever the encoding: each rune outside ASCII is one or more bytes that are no letters,
but for the two whose lower case is one. -/

structure Lowers (lower : Nat → Nat) : Prop where
  ascii : ∀ r, r < 128 → lower r = if 65 ≤ r ∧ r ≤ 90 then r + 32 else r
  dotted : lower 0x130 = 0x69
  kelvin : lower 0x212A = 0x6B
  high : ∀ r, 128 ≤ r → r ≠ 0x130 → r ≠ 0x212A → 128 ≤ lower r

def sanitizeRunes (lastDash : Bool) : List Nat → Str
  | [] => []
  | r :: rs =>
    if (97 ≤ r ∧ r ≤ 122) ∨ (48 ≤ r ∧ r ≤ 57) then UInt8.ofNat r :: sanitizeRunes false rs
    else if lastDash then sanitizeRunes true rs else 45 :: sanitizeRunes true rs

theorem sanitizeRunes_byte (lastDash : Bool) (b : UInt8) (rs : List Nat) : sanitizeRunes lastDash (b.toNat :: rs) =
    if alnum b then b :: sanitizeRunes false rs else if lastDash then sanitizeRunes true rs else 45 :: sanitizeRunes true rs := by
  have halnum : alnum b = true ↔ (97 ≤ b.toNat ∧ b.toNat ≤ 122) ∨ (48 ≤ b.toNat ∧ b.toNat ≤ 57) := by
    simp only [alnum, isDigit, Bool.or_eq_true, Bool.and_eq_true, decide_eq_true_eq, UInt8.le_iff_toNat_le]
    rfl
  rw [sanitizeRunes, UInt8.ofNat_toNat]
  simp only [halnum]

theorem alnum_high {b : UInt8} (h : 128 ≤ b.toNat) : alnum b = false := by
  simp only [alnum, isDigit, Bool.or_eq_false_iff, Bool.and_eq_false_iff, decide_eq_false_iff_not, UInt8.le_iff_toNat_le,
    UInt8.reduceToNat]
  omega

/-- The bytes of a rune outside ASCII: the first makes a hyphen, the others nothing. -/
theorem sanitize_high {bs : Str} (h : ∀ b ∈ bs, 128 ≤ b.toNat) (t : Str) : sanitize true (bs ++ t) = sanitize true t := by
  induction bs with
  | nil => rfl
  | cons b bs ih =>
    rw [List.forall_mem_cons] at h
    rw [List.cons_append, sanitize, alnum_high h.1, if_neg (by decide), if_pos rfl, ih h.2]

theorem lowerRune_lowers : Lowers lowerRune where
  ascii _ hr := if_pos hr
  dotted := caseRanges_low.1
  kelvin := caseRanges_low.2.1
  high _ hr hd hk := lowerRune_high hr hd hk

/-- Which runes have a lower case in ASCII, and which, does not depend on the table. -/
theorem Lowers.eq_of_low {f g : Nat → Nat} (hf : Lowers f) (hg : Lowers g) {r : Nat} (h : f r < 128) : f r = g r := by
  by_cases hr : r < 128
  · rw [hf.ascii r hr, hg.ascii r hr]
  · by_cases hd : r = 0x130
    · rw [hd, hf.dotted, hg.dotted]
    · by_cases hk : r = 0x212A
      · rw [hk, hf.kelvin, hg.kelvin]
      · exact absurd h (Nat.not_lt.mpr (hf.high r (Nat.not_lt.mp hr) hd hk))

theorem sanitize_runes {lower : Nat → Nat} (hl : Lowers lower) (rs : List Nat) : ∀ lastDash : Bool,
    sanitizeRunes lastDash (rs.map lower) = sanitize lastDash (rs.flatMap fun r => encodeRune (lowerRune r)) := by
  induction rs with
  | nil =>
    intro lastDash
    rfl
  | cons r rs ih =>
    intro lastDash
    rw [List.map_cons, List.flatMap_cons]
    by_cases hlow : lower r < 128
    · -- ASCII: the byte is the rune
      have hbyte : lower r = (UInt8.ofNat (lower r)).toNat := (UInt8.toNat_ofNat_of_lt' (show lower r < 256 by omega)).symm
      rw [← hl.eq_of_low lowerRune_lowers hlow, hbyte, encodeRune_byte (hbyte ▸ hlow), sanitizeRunes_byte, ih, ih]
      rfl
    · -- any other: one hyphen, for the first of its bytes
      have hrune : 128 ≤ lowerRune r := by
        by_contra hcon
        have heq := lowerRune_lowers.eq_of_low hl (Nat.not_le.mp hcon)
        omega
      obtain ⟨hne, hbytes⟩ := encodeRune_high hrune
      obtain ⟨b, bs, hb⟩ := List.exists_cons_of_ne_nil hne
      rw [hb, List.forall_mem_cons] at hbytes
      have hone : ¬((97 ≤ lower r ∧ lower r ≤ 122) ∨ (48 ≤ lower r ∧ lower r ≤ 57)) := by omega
      rw [hb, List.cons_append, sanitize, sanitizeRunes, if_neg hone, alnum_high hbytes.1, if_neg Bool.false_ne_true,
        sanitize_high hbytes.2, ih]

/-- The loop of `SanitizeName` over the runes of the lower-case text. -/
theorem sanitizeRunes_eq {lower : Nat → Nat} (hl : Lowers lower) (hostname : Str) :
    sanitizeRunes true ((runes hostname).map lower) = sanitize true (toLower hostname) :=
  sanitize_runes hl (runes hostname) true

/-- The two runes, with the rest of the table left out. -/
theorem sanitizeRunes_eq_kelvin : ∃ lower, Lowers lower ∧
    sanitizeRunes true ((runes [0xE2, 0x84, 0xAA]).map lower) = str "k" := by
  have hl : Lowers fun r => if r = 0x130 then 0x69 else if r = 0x212A then 0x6B else if 65 ≤ r ∧ r ≤ 90 then r + 32 else r := by
    refine ⟨fun r hr => ?_, rfl, rfl, fun r hr hd hk => ?_⟩
    · rw [if_neg (by omega), if_neg (by omega)]
    · rw [if_neg hd, if_neg hk, if_neg (by omega)]
      exact hr
  exact ⟨_, hl, (sanitizeRunes_eq hl _).trans (by decide)⟩

/-! ## Numbered names -/

theorem decimal_length {n : Nat} (h : n < 10000) : (decimal n).length ≤ 4 := by
  unfold decimal
  rw [List.length_map]
  exact (Nat.length_toDigits_le_iff (by decide) (by decide)).mpr h

/-- The start of a label with a hyphen and a number after it is a label. -/
theorem numbered_valid {s : Str} {i : Nat} (hs : Starts s) (hne : s ≠ []) (hlen : (s ++ 45 :: decimal i).length ≤ 63) :
    validLabel (s ++ 45 :: decimal i) = true := by
  have hdigits := decimal_digits i
  obtain ⟨c, s, rfl⟩ := List.exists_cons_of_ne_nil hne
  obtain ⟨d, hd⟩ : ∃ d, (decimal i).getLast? = some d :=
    ⟨_, List.getLast?_eq_some_getLast (decimal_ne_nil i)⟩
  have hlast : (c :: s ++ 45 :: decimal i).getLast? = some d := by
    rw [List.getLast?_append, List.getLast?_cons, hd]
    rfl
  refine validLabel_iff.mpr ⟨by simp, ⟨⟨?_, hs.2⟩, ?_⟩, hlen⟩
  · intro x hx
    rcases List.mem_append.mp hx with hx | hx
    · exact hs.1 x hx
    · rcases List.mem_cons.mp hx with hx | hx
      · exact .inr hx
      · exact .inl (by simp [alnum, hdigits x hx])
  · rw [hlast]
    simp [alnum, hdigits d (List.mem_of_getLast? hd)]

/-- A label that is cut keeps its first character, and the number is at its end. -/
theorem candidate_valid {base : Str} (h : validLabel base = true) {i : Nat} (hi : i < 10000) :
    validLabel (candidate base i) = true := by
  obtain ⟨hne, ⟨hstarts, -⟩, hlen⟩ := validLabel_iff.mp h
  have hshort := decimal_length hi
  unfold candidate
  simp only
  split
  · rename_i hlong
    refine numbered_valid (hstarts.take _) ?_ ?_
    · rw [ne_eq, List.take_eq_nil_iff, not_or]
      refine ⟨?_, hne⟩
      simp only [List.length_cons]
      omega
    · simp only [List.length_append, List.length_cons, List.length_take]
      omega
  · exact numbered_valid hstarts hne (by omega)

/-- What `uniqueName` returns: a name that is free, the base or a numbered one. -/
theorem uniqueName_some {taken : List Str} {base n : Str} {reserved : Str → Bool} (h : uniqueName taken base reserved = some n) :
    n ∉ taken ∧ reserved n = false ∧ (n = base ∨ ∃ i, (2 ≤ i ∧ i < 10000) ∧ n = candidate base i) := by
  unfold uniqueName at h
  simp only at h
  split at h
  · rename_i hfree
    cases h
    simp only [Bool.and_eq_true, Bool.not_eq_true', List.contains_eq_mem, decide_eq_false_iff_not] at hfree
    exact ⟨hfree.1, hfree.2, .inl rfl⟩
  · have hfree := List.find?_some h
    simp only [Bool.and_eq_true, Bool.not_eq_true', List.contains_eq_mem, decide_eq_false_iff_not] at hfree
    obtain ⟨i, hi, rfl⟩ := List.mem_map.mp (List.mem_of_find?_eq_some h)
    have hrange := List.mem_range'_1.mp hi
    exact ⟨hfree.1, hfree.2, .inr ⟨i, ⟨hrange.1, by omega⟩, rfl⟩⟩

end Thawr.Control
