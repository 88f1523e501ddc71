/-
  Thawr.Dns.HostsEdits — the hosts file over many edits (`internal/dns/hosts.go`).

  A file that has no begin marker is edited by `spliceHostsBlock` with blocks rendered from
  entries none of whose lines reads as the end marker. Its own text then stays as it is, up to
  the line feed its last line may lack, and the block behind it is the one of the last edit
  (`splice_block`, `edits_settle`). So editing again with the same block changes nothing and the
  empty block gives the file back (`hosts_set_and_restore`).

  The address of an entry is written with its zone, and a zone is any text. One with a line
  feed and the end marker ends the block early: what follows stays in the file for good
  (`a_zone_ends_the_block`).
-/

import Thawr.Dns.Hosts

namespace Thawr.Dns

open Go Netip

/-- No line of the text reads as the begin marker. -/
def Unmarked (data : Str) : Prop := ∀ p ∈ splitAfter data 10, trimNewline p ≠ hostsBegin

/-- The text with the line feed its last line may lack. -/
def finished (data : Str) : Str := data ++ if data ≠ [] ∧ data.getLast? ≠ some 10 then [10] else []

/-- No line of what is written for an entry reads as the end marker. A begin marker does no
    harm there: the first one counts. -/
def Unended (zone : Str) (entries : List Entry) : Prop :=
  ∀ e ∈ rendered entries, ∀ l ∈ lines (entryLine zone e ++ [10]), trimNewline l ≠ hostsEnd

/-- A block that `renderHostsBlock` makes of such entries. -/
def IsBlock (block : Str) : Prop := ∃ (S : SliceSort entryLess) (zone : Str) (entries : List Entry),
  Unended zone entries ∧ block = renderHostsBlock S zone entries

def edited (data : Str) (blocks : List Str) : Str := blocks.foldl (fun data block => (spliceHostsBlock data block).1) data

/-! ## The lines of a block -/

section

variable {zone data base block : Str} {S : SliceSort entryLess} {entries : List Entry} {blocks : List Str}

/-- The lines of a block between its markers. -/
theorem IsBlock.pieces (h : IsBlock block) (hne : block ≠ []) :
    ∃ ls : List Str, splitAfter block 10 = (hostsBegin ++ [10]) :: (ls ++ [hostsEnd ++ [10], []]) ∧
      ∀ l ∈ ls, trimNewline l ≠ hostsEnd := by
  obtain ⟨S, zone, entries, hlines, rfl⟩ := h
  have hentries : entries ≠ [] := by
    rintro rfl
    exact hne rfl
  obtain ⟨l, hl⟩ := renderHostsBlock_terminated.resolve_left hne
  refine ⟨((S.run (rendered entries)).flatMap fun e => lines (entryLine zone e ++ [10])).map (· ++ [10]), ?_, fun p hp => ?_⟩
  · rw [hl, splitAfter_lines, ← hl, renderHostsBlock_lines hentries]
    simp
  · obtain ⟨m, hm, rfl⟩ := List.mem_map.mp hp
    obtain ⟨e, he, hm⟩ := List.mem_flatMap.mp hm
    rw [trimNewline_append]
    exact hlines e (S.mem_iff.mp he) m hm

/-! ## The markers -/

theorem findMarker_unmarked {ps : List Str} (h : ∀ p ∈ ps, trimNewline p ≠ hostsBegin) (k : Nat) :
    (ps.zipIdx k).foldl findMarker (none, none) = (none, none) := by
  induction ps generalizing k with
  | nil => rfl
  | cons p ps ih =>
    have hstep : findMarker (none, none) (p, k) = (none, none) := by
      simp only [findMarker, h p List.mem_cons_self, if_false, Option.isSome_none, Bool.false_and, Bool.false_eq_true, ite_self]
    rw [List.zipIdx_cons, List.foldl_cons, hstep]
    exact ih (fun q hq => h q (List.mem_cons_of_mem _ hq)) (k + 1)

/-- Once a begin marker is found, only an end marker makes a difference. -/
theorem findMarker_open {ps : List Str} (h : ∀ p ∈ ps, trimNewline p ≠ hostsEnd) (k j : Nat) (r : Option Nat) :
    (ps.zipIdx k).foldl findMarker (some j, r) = (some j, r) := by
  induction ps generalizing k with
  | nil => rfl
  | cons p ps ih =>
    have hstep : findMarker (some j, r) (p, k) = (some j, r) := by
      simp only [findMarker, h p List.mem_cons_self, if_false, Option.getD_some, ite_self]
    rw [List.zipIdx_cons, List.foldl_cons, hstep]
    exact ih (fun q hq => h q (List.mem_cons_of_mem _ hq)) (k + 1)

/-- The two marker lines are told apart, and from an empty one. -/
theorem markers : trimNewline (hostsBegin ++ [10]) = hostsBegin ∧ trimNewline (hostsEnd ++ [10]) = hostsEnd ∧
    hostsEnd ≠ hostsBegin ∧
    trimNewline [] ≠ hostsBegin ∧ trimNewline [] ≠ hostsEnd := by
  decide +kernel

theorem findMarker_begin (k : Nat) : findMarker (none, none) (hostsBegin ++ [10], k) = (some k, none) := by
  simp only [findMarker, markers.1, if_true, Option.getD_none]

theorem findMarker_end (j k : Nat) : findMarker (some j, none) (hostsEnd ++ [10], k) = (some j, some k) := by
  obtain ⟨-, he, hne, -⟩ := markers
  simp only [findMarker, he, hne, if_false, if_true, Option.isSome_some, Option.isNone_none, Bool.and_self]

/-- Behind lines without a begin marker, the markers found are those of the block. -/
theorem findMarker_block {ps ls : List Str} (hps : ∀ p ∈ ps, trimNewline p ≠ hostsBegin)
    (hls : ∀ l ∈ ls, trimNewline l ≠ hostsEnd) :
    ((ps ++ (hostsBegin ++ [10]) :: (ls ++ [hostsEnd ++ [10], []])).zipIdx).foldl findMarker (none, none) =
      (some ps.length, some (ps.length + 1 + ls.length)) := by
  have hlast : findMarker (some ps.length, some (ps.length + 1 + ls.length)) ([], ps.length + 1 + ls.length + 1) =
      (some ps.length, some (ps.length + 1 + ls.length)) := by
    obtain ⟨-, -, -, hb, he⟩ := markers
    simp only [findMarker, hb, he, if_false]
  rw [List.zipIdx_append, List.foldl_append, findMarker_unmarked hps, List.zipIdx_cons, List.foldl_cons, Nat.zero_add,
    findMarker_begin,
    List.zipIdx_append, List.foldl_append, findMarker_open hls, List.zipIdx_cons, List.foldl_cons, findMarker_end,
      List.zipIdx_cons,
    List.foldl_cons, hlast]
  rfl

/-! ## One edit -/

theorem finished_unmarked (h : Unmarked data) : Unmarked (finished data) := by
  unfold finished
  split
  · obtain ⟨ps, p, hd, hf⟩ := splitAfter_finish data 10
    unfold Unmarked at h ⊢
    rw [hd] at h
    rw [hf]
    intro q hq
    simp only [List.mem_append, List.mem_cons, List.not_mem_nil, or_false] at hq
    rcases hq with hq | rfl | rfl
    · exact h q (List.mem_append_left _ hq)
    · rw [trimNewline_append]
      exact h p (List.mem_append_right _ (List.mem_singleton_self _))
    · exact markers.2.2.2.1
  · rwa [List.append_nil]

theorem finished_of_terminated (h : Terminated base) : finished base = base := by
  unfold finished
  rcases h with rfl | ⟨l, rfl⟩
  · rfl
  · rw [if_neg (by simp), List.append_nil]

/-- A file without a block gets one at its end. -/
theorem splice_unmarked (h : Unmarked data) (block : Str) :
    spliceHostsBlock data block = if block = [] then (data, false) else (finished data ++ block, true) := by
  have hfind : (splitAfter data 10).zipIdx.foldl findMarker (none, none) = (none, none) := findMarker_unmarked h 0
  unfold spliceHostsBlock
  simp only [hfind]
  by_cases hne : block = []
  · rw [if_pos hne, if_pos hne]
  · have hlong : finished data ++ block ≠ data := by
      intro he
      have hlen := congrArg List.length he
      have hpos := List.length_pos_iff.mpr hne
      unfold finished at hlen
      rw [List.length_append, List.length_append] at hlen
      omega
    rw [if_neg hne, if_neg hne]
    exact if_neg hlong

/-- The block of a file is replaced. -/
theorem splice_replace (hb : Terminated base) (hm : Unmarked base) (h : IsBlock block) (hne : block ≠ []) (next : Str) :
    spliceHostsBlock (base ++ block) next = if next = block then (base ++ block, false) else (base ++ next, true) := by
  obtain ⟨ls, hpieces, hls⟩ := h.pieces hne
  have hps : ∀ p ∈ (splitAfter base 10).dropLast, trimNewline p ≠ hostsBegin := fun p hp => hm p (List.mem_of_mem_dropLast hp)
  have hsplit : splitAfter (base ++ block) 10 =
      (splitAfter base 10).dropLast ++ (hostsBegin ++ [10]) :: (ls ++ [hostsEnd ++ [10], []]) := by
    rw [splitAfter_append hb, hpieces]
  have hdrop : ((splitAfter base 10).dropLast ++ (hostsBegin ++ [10]) :: (ls ++ [hostsEnd ++ [10], []])).drop
      ((splitAfter base 10).dropLast.length + 1 + ls.length + 1) = [[]] := by
    have hassoc : (splitAfter base 10).dropLast ++ (hostsBegin ++ [10]) :: (ls ++ [hostsEnd ++ [10], []]) =
        ((splitAfter base 10).dropLast ++ (hostsBegin ++ [10]) :: (ls ++ [hostsEnd ++ [10]])) ++ [[]] := by
      simp only [List.append_assoc, List.cons_append, List.nil_append]
    rw [hassoc]
    refine List.drop_left' ?_
    simp only [List.length_append, List.length_cons, List.length_nil]
    omega
  unfold spliceHostsBlock
  simp only [hsplit, findMarker_block hps hls, List.take_left, Option.getD_some, hdrop,
    splitAfter_dropLast_flatten hb, List.flatten_cons,
    List.flatten_nil, List.append_nil, List.append_cancel_left_eq]

theorem splice_block (hb : Terminated base) (hm : Unmarked base) (h : IsBlock block) (next : Str) :
    spliceHostsBlock (base ++ block) next = if next = block then (base ++ block, false) else (base ++ next, true) := by
  by_cases hne : block = []
  · rw [hne, List.append_nil, splice_unmarked hm, finished_of_terminated hb]
  · exact splice_replace hb hm h hne next

theorem splice_finished (hd : Unmarked data) (h : IsBlock block) (next : Str) :
    spliceHostsBlock (finished data ++ block) next = if next = block then (finished data ++ block, false)
      else (finished data ++ next, true) := by
  have hterm : Terminated (finished data) := finished_terminated data
  exact splice_block hterm (finished_unmarked hd) h next

/-! ## Many edits -/

theorem isBlock_nil : IsBlock [] := by
  refine ⟨entrySort, [], [], fun e he => ?_, rfl⟩
  cases he

theorem getLastD_isBlock (h : ∀ b ∈ blocks, IsBlock b) : IsBlock (blocks.getLastD []) := by
  rcases blocks.eq_nil_or_concat with rfl | ⟨bs, b, rfl⟩
  · exact isBlock_nil
  · grind

/-- The file is as it was while no block was written, and from then on it is finished and ends
    with the last block. -/
theorem edits_settle (hd : Unmarked data) (hb : ∀ b ∈ blocks, IsBlock b) :
    (∀ b ∈ blocks, b = []) ∧ edited data blocks = data ∨
      (∃ b ∈ blocks, b ≠ []) ∧ edited data blocks = finished data ++ blocks.getLastD [] := by
  induction blocks using List.reverseRecOn with
  | nil =>
    refine .inl ⟨fun b hb => ?_, rfl⟩
    cases hb
  | append_singleton bs b ih =>
    have hstep : edited data (bs ++ [b]) = (spliceHostsBlock (edited data bs) b).1 := by
      rw [edited, List.foldl_append]
      rfl
    have hbs : ∀ c ∈ bs, IsBlock c := fun c hc => hb c (List.mem_append_left _ hc)
    rw [hstep, List.getLastD_concat]
    rcases ih hbs with ⟨hnil, he⟩ | ⟨⟨c, hc, hne⟩, he⟩
    · rw [he, splice_unmarked hd]
      by_cases hbn : b = []
      · grind
      · exact .inr ⟨⟨b, List.mem_append_right _ (List.mem_singleton_self b), hbn⟩, by rw [if_neg hbn]⟩
    · refine .inr ⟨⟨c, List.mem_append_left _ hc, hne⟩, ?_⟩
      rw [he, splice_finished hd (getLastD_isBlock hbs)]
      split
      · rename_i hsame
        rw [hsame]
      · rfl

end

/-- Edits with blocks whose entries hold no end marker leave a file without a begin marker as it
was, until a block is written: then it is the file, with the line feed its last line may have
lacked, and the block of the last edit. The same edit again changes nothing, and the empty block takes
the block away and nothing else. -/
theorem hosts_set_and_restore {data : Str} {blocks : List Str} (hd : Unmarked data) (hb : ∀ b ∈ blocks, IsBlock b) :
    ((∀ b ∈ blocks, b = []) → edited data blocks = data) ∧
    ((∃ b ∈ blocks, b ≠ []) → edited data blocks = finished data ++ blocks.getLastD []) ∧
    (∀ b, blocks.getLast? = some b → spliceHostsBlock (edited data blocks) b = (edited data blocks, false)) ∧
    ∃ rest, edited data blocks = rest ++ blocks.getLastD [] ∧ (spliceHostsBlock (edited data blocks) []).1 = rest := by
  rcases edits_settle hd hb with ⟨hnil, he⟩ | ⟨⟨c, hc, hne⟩, he⟩
  · have hlast : blocks.getLastD [] = [] := by
      rcases blocks.eq_nil_or_concat with rfl | ⟨bs, b, rfl⟩
      · rfl
      · rw [List.concat_eq_append, List.getLastD_concat]
        exact hnil b (by rw [List.concat_eq_append]; exact List.mem_append_right _ (List.mem_singleton_self b))
    refine ⟨fun _ => he, fun ⟨c, hc, hne⟩ => absurd (hnil c hc) hne, fun b hlb => ?_, data, ?_, ?_⟩
    · rw [he, hnil b (List.mem_of_getLast? hlb), splice_unmarked hd, if_pos rfl]
    · rw [he, hlast, List.append_nil]
    · rw [he, splice_unmarked hd, if_pos rfl]
  · have hsplice := splice_finished hd (getLastD_isBlock hb)
    grind

def upAndDown : List Str := [renderHostsBlock entrySort zoneName [⟨str "nas", .v4 (Arr.ofNat 4 0x64400002)⟩], []]

theorem hosts_set_and_restore_nas :
    Unmarked (str "127.0.0.1 localhost") ∧ (∀ b ∈ upAndDown, IsBlock b) ∧
      edited (str "127.0.0.1 localhost") upAndDown = str "127.0.0.1 localhost\n" := by
  have hd : Unmarked (str "127.0.0.1 localhost") := by
    unfold Unmarked
    decide +kernel
  have hb : ∀ b ∈ upAndDown, IsBlock b := by
    intro b hmem
    rcases List.mem_cons.mp hmem with rfl | hmem
    · refine ⟨entrySort, zoneName, _, ?_, rfl⟩
      unfold Unended
      decide +kernel
    · rw [List.mem_singleton.mp hmem]
      exact isBlock_nil
  refine ⟨hd, hb, ((hosts_set_and_restore hd hb).2.1 ⟨_, List.mem_cons_self, ?_⟩).trans ?_⟩
  · decide +kernel
  · decide +kernel

/-- An address whose zone holds the end marker. What its line has behind the marker is outside
the block and is still there when the block is gone. -/
theorem a_zone_ends_the_block :
    edited [] [renderHostsBlock entrySort zoneName [⟨str "nas", .v6 (Arr.ofNat 16 1) (str "x\n# thawr end\ny")⟩], []] =
      str "y nas.thawr\n# thawr end\n" := by
  decide +kernel

end Thawr.Dns
