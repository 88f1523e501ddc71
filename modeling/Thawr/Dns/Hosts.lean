/-
  Thawr.Dns.Hosts — the managed block of the hosts file (`internal/dns/hosts.go`).

  `Update` renders one line per entry and puts the block in place of the one that is there, or
  at the end of the file. A write that fails leaves the file as it is; the order `sort.Slice`
  puts equal entries in is left open.

  Proved: every line of the file after a write was there before or is one of the block
  (`spliceHostsBlock_lines`), and the lines of a block are its markers and those of the texts of
  its entries (`renderHostsBlock_lines`).
-/

import Mathlib.Data.List.Lex
import Thawr.Go.Lines
import Thawr.Go.Netip

namespace Thawr.Dns

open Go Netip

def zoneName : Str := str "thawr"

def hostsBegin : Str := str "# thawr begin"

def hostsEnd : Str := str "# thawr end"

structure Entry where
  name : Str
  addr : Addr

def entryLess (a b : Entry) : Bool :=
  if a.addr.less b.addr then true else if b.addr.less a.addr then false else decide (a.name < b.name)

def entryLine (zone : Str) (e : Entry) : Str := e.addr.string ++ 32 :: e.name ++ 46 :: zone

def rendered (entries : List Entry) : List Entry := entries.filter fun e => e.addr.isValid && e.name != []

def renderHostsBlock (S : SliceSort entryLess) (zone : Str) (entries : List Entry) : Str :=
  if entries = [] then []
  else hostsBegin ++ [10] ++ (S.run (rendered entries)).flatMap (fun e => entryLine zone e ++ [10]) ++ hostsEnd ++ [10]

/-- The loop that looks for the markers: the first begin, and the first end after it. -/
def findMarker (r : Option Nat × Option Nat) (x : Str × Nat) : Option Nat × Option Nat :=
  let l := trimNewline x.1
  if l = hostsBegin then (some (r.1.getD x.2), r.2)
  else if l = hostsEnd then (r.1, if r.1.isSome && r.2.isNone then some x.2 else r.2)
  else r

/-- `spliceHostsBlock`, and whether anything changed. A block without its end runs to the end of
    the file; an end that is found stands after its begin. -/
def spliceHostsBlock (data block : Str) : Str × Bool :=
  let pieces := splitAfter data 10
  let r := pieces.zipIdx.foldl findMarker (none, none)
  let out :=
    match r.1 with
    | some start => some ((pieces.take start).flatten ++ block ++ (pieces.drop (r.2.getD (pieces.length - 1) + 1)).flatten)
    | none =>
      if block = [] then none else some (data ++ (if data ≠ [] ∧ data.getLast? ≠ some 10 then [10] else []) ++ block)
  match out with
  | none => (data, false)
  | some out => if out = data then (data, false) else (out, true)

/-- `hostsFile.write`: the file afterwards; `ok` when every call on the way succeeds. A missing
    file is not created. -/
def writeHosts (ok : Bool) (file : Option Str) (block : Str) : Option Str :=
  file.map fun data =>
    let r := spliceHostsBlock data block
    if r.2 && ok then r.1 else data

def updateHosts (S : SliceSort entryLess) (ok : Bool) (file : Option Str) (zone : Str) (entries : List Entry) : Option Str :=
  writeHosts ok file (renderHostsBlock S zone entries)

/-! ## A sort -/

theorem map_toNat_lt {a b : Str} : a.map UInt8.toNat < b.map UInt8.toNat ↔ a < b := by
  induction a generalizing b with
  | nil =>
    cases b with
    | nil => simp
    | cons d b => simp
  | cons c a ih =>
    cases b with
    | nil => simp
    | cons d b =>
      simp only [List.map_cons, List.cons_lt_cons_iff, UInt8.lt_iff_toNat_lt, UInt8.toNat_inj, ih]

def entryKey (e : Entry) : List (List Nat) :=
  [[e.addr.bitLen], [e.addr.num], e.addr.zone.map UInt8.toNat, e.name.map UInt8.toNat]

theorem entryLess_iff (a b : Entry) : entryLess a b = true ↔ entryKey a < entryKey b := by
  have hsingle : ∀ {m n : Nat}, [m] < [n] ↔ m < n := by
    intro m n
    simp [List.cons_lt_cons_iff]
  unfold entryLess Addr.less entryKey
  simp only [List.cons_lt_cons_iff, hsingle, List.cons.injEq, and_true, ← map_toNat_lt, List.lt_irrefl, and_false, or_false]
  rcases lt_trichotomy a.addr.bitLen b.addr.bitLen with h | h | h
  · simp [h, h.ne]
  · grind
  · simp [h, h.ne, h.ne', h.not_gt]

def entrySort : SliceSort entryLess where
  run := List.insertionSort fun a b => entryLess b a = false
  perm := List.perm_insertionSort _
  sorted l := by
    have hiff : ∀ a b : Entry, entryLess b a = false ↔ entryKey a ≤ entryKey b := by
      intro a b
      rw [← not_lt, ← entryLess_iff, Bool.not_eq_true]
    have : Std.Total fun a b : Entry => entryLess b a = false := ⟨fun a b => by
      simp only [hiff]
      exact le_total _ _⟩
    have : IsTrans Entry fun a b : Entry => entryLess b a = false := ⟨fun a b c => by
      simp only [hiff]
      exact le_trans⟩
    exact List.pairwise_insertionSort (fun a b : Entry => entryLess b a = false) l

/-! ## The lines of a block -/

section

variable {S : SliceSort entryLess} {zone : Str} {entries : List Entry} {data block : Str}

theorem renderHostsBlock_terminated : Terminated (renderHostsBlock S zone entries) := by
  unfold renderHostsBlock
  split
  · exact .inl rfl
  · exact .inr ⟨_, rfl⟩

/-- A block that is not empty, line by line. -/
theorem block_eq (S : SliceSort entryLess) (zone : Str) (entries : List Entry) :
    hostsBegin ++ [10] ++ (S.run (rendered entries)).flatMap (fun e => entryLine zone e ++ [10]) ++ hostsEnd ++ [10] =
      (hostsBegin :: ((S.run (rendered entries)).map (entryLine zone) ++ [hostsEnd])).flatMap (· ++ [10]) := by
  simp [List.flatMap_map, List.flatMap_append]

theorem renderHostsBlock_lines (hne : entries ≠ []) : lines (renderHostsBlock S zone entries) =
    hostsBegin :: ((S.run (rendered entries)).flatMap (fun e => lines (entryLine zone e ++ [10])) ++ [hostsEnd]) := by
  have hbegin : lines (hostsBegin ++ [10]) = [hostsBegin] := lines_one (by decide +kernel)
  have hend : lines (hostsEnd ++ [10]) = [hostsEnd] := lines_one (by decide +kernel)
  rw [renderHostsBlock, if_neg hne, block_eq, lines_flatMap, List.flatMap_cons, List.flatMap_append, List.flatMap_map, hbegin,
    List.flatMap_cons, hend]
  rfl

theorem mem_renderHostsBlock_lines {l : Str} : l ∈ lines (renderHostsBlock S zone entries) ↔
    entries ≠ [] ∧ (l = hostsBegin ∨ l = hostsEnd) ∨ ∃ e ∈ rendered entries, l ∈ lines (entryLine zone e ++ [10]) := by
  by_cases hne : entries = []
  · subst hne
    simp [renderHostsBlock, rendered, lines]
  · rw [renderHostsBlock_lines hne]
    simp only [List.mem_cons, List.mem_append, List.mem_flatMap, S.mem_iff, List.not_mem_nil, or_false, ne_eq, hne,
      not_false_eq_true, true_and]
    rw [or_assoc, or_comm (b := l = hostsEnd)]

/-! ## The lines of the file -/

/-- The begin marker is one of the pieces. -/
theorem findMarker_start {ps : List Str} : ∀ {k n : Nat} {r : Option Nat × Option Nat},
    (∀ i, r.1 = some i → i < n) → k + ps.length = n →
    ∀ i, ((ps.zipIdx k).foldl findMarker r).1 = some i → i < n := by
  induction ps with
  | nil =>
    intro k n r hr _ i hi
    exact hr i hi
  | cons p ps ih =>
    intro k n r hr hk i hi
    rw [List.zipIdx_cons, List.foldl_cons] at hi
    rw [List.length_cons] at hk
    refine ih ?_ (by omega) i hi
    intro j hj
    unfold findMarker at hj
    simp only at hj
    split at hj
    · cases hr1 : r.1 with
      | none =>
        rw [hr1, Option.getD_none] at hj
        cases hj
        omega
      | some a =>
        rw [hr1] at hj
        cases hj
        exact hr a hr1
    · split at hj
      · exact hr j hj
      · exact hr j hj

theorem lines_take_subset {k : Nat} (h : k < (splitAfter data 10).length) :
    ∀ {l}, l ∈ lines ((splitAfter data 10).take k).flatten → l ∈ lines data := by
  intro l hl
  rw [lines_take_drop h]
  exact List.mem_append_left _ hl

theorem lines_drop_subset {k : Nat} : ∀ {l}, l ∈ lines ((splitAfter data 10).drop k).flatten → l ∈ lines data := by
  intro l hl
  rcases Nat.lt_or_ge k (splitAfter data 10).length with h | h
  · rw [lines_take_drop h]
    exact List.mem_append_right _ hl
  · rw [List.drop_eq_nil_of_le h] at hl
    cases hl

/-- The file with the line feed its last line may lack. -/
theorem finished_terminated (data : Str) :
    Terminated (data ++ if data ≠ [] ∧ data.getLast? ≠ some 10 then [10] else []) := by
  split
  · exact .inr ⟨data, rfl⟩
  · rename_i h
    rw [List.append_nil]
    rcases data.eq_nil_or_concat with hnil | ⟨l, c, hc⟩
    · exact .inl hnil
    · refine .inr ⟨l, ?_⟩
      grind

theorem finished_lines (data : Str) :
    lines (data ++ if data ≠ [] ∧ data.getLast? ≠ some 10 then [10] else []) = lines data := by
  split
  · rename_i h
    rcases data.eq_nil_or_concat with hnil | ⟨l, c, hc⟩
    · exact absurd hnil h.1
    · rw [hc, List.concat_eq_append] at h ⊢
      rw [List.getLast?_concat] at h
      exact lines_finish fun he => h.2 (by rw [he])
  · rw [List.append_nil]

/-- Every line after a splice was there before or is one of the block. -/
theorem spliceHostsBlock_lines (hblock : Terminated block) :
    ∀ l ∈ lines (spliceHostsBlock data block).1, l ∈ lines data ∨ l ∈ lines block := by
  intro l hl
  unfold spliceHostsBlock at hl
  simp only at hl
  split at hl
  · exact .inl hl
  · rename_i out hout
    split at hl
    · exact .inl hl
    · split at hout
      · rename_i start hstart
        cases hout
        have hlt : start < (splitAfter data 10).length :=
          findMarker_start (k := 0) (fun i hi => by cases hi) (Nat.zero_add _) start hstart
        rw [List.append_assoc, lines_append (terminated_take hlt), lines_append hblock] at hl
        rcases List.mem_append.mp hl with hl | hl
        · exact .inl (lines_take_subset hlt hl)
        · rcases List.mem_append.mp hl with hl | hl
          · exact .inr hl
          · exact .inl (lines_drop_subset hl)
      · split at hout
        · cases hout
        · cases hout
          rw [lines_append (finished_terminated data)] at hl
          rcases List.mem_append.mp hl with hl | hl
          · rw [finished_lines] at hl
            exact .inl hl
          · exact .inr hl

/-- So it is after an update, whatever becomes of the write. -/
theorem updateHosts_lines (S : SliceSort entryLess) (ok : Bool) (file zone : Str) (entries : List Entry) :
    ∃ out, updateHosts S ok (some file) zone entries = some out ∧
      ∀ l ∈ lines out, l ∈ lines file ∨ l ∈ lines (renderHostsBlock S zone entries) := by
  refine ⟨_, rfl, ?_⟩
  intro l hl
  simp only at hl
  split at hl
  · exact spliceHostsBlock_lines renderHostsBlock_terminated l hl
  · exact .inl hl

/-- An empty file becomes the block. -/
theorem updateHosts_empty (S : SliceSort entryLess) (zone : Str) (entries : List Entry) :
    updateHosts S true (some []) zone entries = some (renderHostsBlock S zone entries) := by
  have hfind : (splitAfter [] 10).zipIdx.foldl findMarker (none, none) = (none, none) := by decide
  unfold updateHosts writeHosts spliceHostsBlock
  simp only [hfind, Option.map_some]
  by_cases hnil : renderHostsBlock S zone entries = []
  · simp [hnil]
  · simp [hnil]

end

end Thawr.Dns
