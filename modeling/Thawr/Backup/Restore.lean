/-
  Thawr.Backup.Restore — what `Extract` accepts, and what it makes of `Write`'s archives
  (`internal/backup/backup.go`).

  (1) Whatever the stream, an `Extract` that succeeds has read a manifest of the known format
      and one regular entry for each of its files, with their sizes and sums, and the directory
      then has these files and no others, all of them strictly below it (`Extracted`).
  (2) From sources whose paths are accepted, distinct and none the directory of another, and
      files that do not change, `Write` makes an archive that is extracted to the same files
      exactly when tar and JSON carry the paths and the manifest is no longer than
      `maxManifestSize`.

  `Write` does not look at how long the manifest is. It takes some thousands of files to make
  one that is too long, and then `Extract` refuses what `Write` made
  (`a_long_manifest_is_refused`). That SHA-256 is injective is not used: a file that is copied
  as it was hashed has the sum of the manifest, whatever else has it.
-/

import Thawr.Backup.Archive
import Thawr.Go.AddrText

namespace Thawr.Backup

open Go Go.Paths

def Below (d q : Path) : Prop := q.rooted = d.rooted ∧ ∃ ns, ns ≠ [] ∧ (∀ n ∈ ns, n ≠ dotdot) ∧ q.names = ns ++ d.names

structure EmptyDir (t : FileTree) (dir : Str) : Prop where
  named : dir ≠ []
  there : FileTree.stat t (resolve dir) = some .dir
  empty : ∀ q, Below (resolve dir) q → t.lookup q = none

/-- What a successful `Extract` has read, and what it leaves. -/
structure Extracted (c : Codec) (t : FileTree) (dir : Str) (m : Manifest) (first : Entry) (rest : List Entry)
    (t' : FileTree) : Prop where
  name : first.name = manifestName
  reg : first.reg = true
  manifest : c.decode first.data = some m
  known : m.format = format
  regular : ∀ e ∈ rest, e.reg = true
  /-- The names are the manifest's paths, each once. -/
  names : (rest.map (·.name)).Perm (m.files.map (·.path))
  once : (rest.map (·.name)).Nodup
  described : ∀ e ∈ rest, ∃ f ∈ m.files, f.path = e.name ∧ f.size = e.data.length ∧ f.sha256 = c.sum e.data
  below : ∀ e ∈ rest, Below (resolve dir) (join dir e.name)
  apart : (rest.map fun e => join dir e.name).Nodup
  files : ∀ q b, Below (resolve dir) q → (t'.lookup q = some (.file b) ↔ ∃ e ∈ rest, q = join dir e.name ∧ b = e.data)
  elsewhere : ∀ q b, ¬Below (resolve dir) q → (t'.lookup q = some (.file b) ↔ t.lookup q = some (.file b))

/-! ## Accepted paths -/

section

variable {p q dir : Str}

def AllPlain (p : Str) : Prop := ∀ n ∈ elements p, Plain n

theorem checkPath_plain (h : checkPath p = .ok ()) : AllPlain p := by
  obtain ⟨hno, h⟩ := ite_error_ok.mp h
  obtain ⟨hup, -⟩ := ite_error_ok.mp h
  simp only [not_or, not_not, Bool.not_eq_true] at hno
  obtain ⟨-, -, -, habs, hclean, hdot, -, -⟩ := hno
  refine plain_of_clean hclean habs hdot fun n hn heq => hup ?_
  exact List.any_eq_true.mpr ⟨n, hn, beq_iff_eq.mpr heq⟩

theorem below_join (hdir : dir ≠ []) (hp : AllPlain p) : Below (resolve dir) (join dir p) := by
  rw [join_plain hdir hp]
  refine ⟨rfl, (elements p).reverse, List.reverse_ne_nil_iff.mpr (split_ne_nil p 47), fun n hn => ?_, rfl⟩
  exact (hp n (List.mem_reverse.mp hn)).ne_dotdot

theorem join_inj (hdir : dir ≠ []) (hp : AllPlain p) (hq : AllPlain q) (h : join dir p = join dir q) :
    p = q := by
  rw [join_plain hdir hp, join_plain hdir hq] at h
  have hnames : (elements p).reverse ++ (resolve dir).names = (elements q).reverse ++ (resolve dir).names := congrArg Path.names h
  exact split_inj 47 (List.reverse_injective (List.append_cancel_right hnames))

end

/-! ## What is read -/

section

variable {c : Codec} {t t' : FileTree} {dir : Str}

theorem wanted_ok {want want' : GoMap Str File} {files : List File} (h : wanted want files = .ok want') :
    (∀ f ∈ files, checkPath f.path = .ok () ∧ want.lookup f.path = none) ∧ (files.map (·.path)).Nodup ∧
      ∀ p f, want'.lookup p = some f ↔ want.lookup p = some f ∨ f ∈ files ∧ f.path = p := by
  induction files generalizing want with
  | nil =>
    cases h
    grind
  | cons g files ih =>
    simp only [wanted, bind_ok, check_ok, exists_const, Bool.and_eq_true, Option.isNone_iff_eq_none] at h
    obtain ⟨_, hpath, ⟨hnone, -⟩, h⟩ := h
    obtain ⟨hall, hnodup, hlook⟩ := ih h
    have hother : ∀ f ∈ files, f.path ≠ g.path := by
      intro f hf heq
      have hins := (hall f hf).2
      rw [heq, Finmap.lookup_insert] at hins
      cases hins
    refine ⟨fun f hf => ?_, ?_, fun p f => ?_⟩
    · rcases List.mem_cons.mp hf with rfl | hf
      · exact ⟨hpath, hnone⟩
      · obtain ⟨hf1, hf2⟩ := hall f hf
        rw [Finmap.lookup_insert_of_ne _ (hother f hf)] at hf2
        exact ⟨hf1, hf2⟩
    · grind
    · rw [hlook]
      by_cases hp : p = g.path
      · subst hp
        rw [Finmap.lookup_insert, hnone]
        grind
      · rw [Finmap.lookup_insert_of_ne _ hp]
        grind

theorem extractFile_ok {e : Entry} {f : File} (hsize : (e.size : Int) = f.size) (h : extractFile c t dir e f = .ok t') :
    f.size = e.data.length ∧ f.sha256 = c.sum e.data ∧
      ∀ q b, t'.lookup q = some (.file b) ↔ t.lookup q = some (.file b) ∨ q = join dir f.path ∧ b = e.data := by
  -- an entry has no more content than its size
  have hall : e.data.take (f.size.toNat + 1) = e.data := by
    have hfits := e.fits
    exact List.take_of_length_le (by omega)
  simp only [extractFile, hall, bind_ok, check_ok, mapError_ok, exists_const, Bool.and_eq_true, decide_eq_true_eq,
    beq_iff_eq] at h
  obtain ⟨u, hu, v, hv, -, ⟨hlen, hsum⟩, h⟩ := h
  cases h
  refine ⟨hlen.symm, hsum.symm, fun q b => ?_⟩
  rw [FileTree.createExcl_file hv, FileTree.mkdirAll_file hu]

/-- One entry per turn: it is wanted, was not got yet, and its content is in the tree. -/
theorem extractFiles_ok {want : GoMap Str File} (hw : ∀ p f, want.lookup p = some f → f.path = p) {es : List Entry}
    {got : List Str}
    {x : List Str × FileTree} (h : extractFiles c dir want got t es = .ok x) :
    (∀ e ∈ es, e.name ∉ got ∧ e.reg = true ∧ ∃ f, want.lookup e.name = some f ∧ f.size = e.data.length ∧
      f.sha256 = c.sum e.data) ∧
      (es.map (·.name)).Nodup ∧ (∀ n, n ∈ x.1 ↔ n ∈ got ∨ ∃ e ∈ es, e.name = n) ∧
      ∀ q b, x.2.lookup q = some (.file b) ↔ t.lookup q = some (.file b) ∨ ∃ e ∈ es, q = join dir e.name ∧ b = e.data := by
  induction es generalizing got t with
  | nil =>
    cases h
    simp
  | cons e es ih =>
    rw [extractFiles] at h
    split at h
    · cases h
    · rename_i f hf
      simp only [bind_ok, check_ok, exists_const, Bool.and_eq_true, decide_eq_true_eq] at h
      obtain ⟨hnew, ⟨hreg, hentry⟩, u, hu, h⟩ := h
      have hnew : e.name ∉ got := by simpa using hnew
      obtain ⟨hsize, hsum, htree⟩ := extractFile_ok hentry hu
      obtain ⟨hall, hnodup, hgot, hfiles⟩ := ih h
      rw [hw _ _ hf] at htree
      refine ⟨fun y hy => ?_, ?_, fun n => ?_, fun q b => ?_⟩
      · grind
      · grind
      · rw [hgot, List.mem_cons, List.exists_mem_cons_iff, or_assoc, eq_comm, or_left_comm]
      · rw [hfiles, htree, List.exists_mem_cons_iff, or_assoc]

/-- `Extract` took every check. -/
theorem extract_ok {r : Stream} {m : Manifest} (h : extract c t r dir = .ok (m, t')) :
    ∃ first rest want u got, r.entries = first :: rest ∧ first.name = manifestName ∧ first.reg = true ∧
      c.decode first.data = some m ∧
      m.format = format ∧ wanted ∅ m.files = .ok want ∧ dir ≠ [] ∧
        FileTree.mkdirAll t (resolve dir).rooted (resolve dir).names = .ok u ∧
      extractFiles c dir want [] u rest = .ok (got, t') ∧ ∀ f ∈ m.files, f.path ∈ got := by
  unfold extract at h
  obtain ⟨_, -, h⟩ := bind_ok.mp h
  split at h
  · cases h
  · rename_i first rest hentries
    simp only [bind_ok, check_ok, found_ok, mapError_ok, exists_const, Bool.and_eq_true, decide_eq_true_eq, beq_iff_eq,
      bne_iff_ne, List.all_eq_true, List.contains_iff_mem] at h
    obtain ⟨⟨⟨hname, hreg⟩, hsize⟩, m', hm, hformat, want, hwant, hdir, u, hu, -, ⟨got, v⟩, hv, -, hgot, _, -, h⟩ := h
    cases h
    rw [List.take_of_length_le (first.fits.trans hsize)] at hm
    exact ⟨first, rest, want, u, got, hentries, hname, hreg, hm, hformat, hwant, hdir, hu, hv, hgot⟩

theorem extract_extracted (hempty : ∀ q, Below (resolve dir) q → t.lookup q = none) {r : Stream} {m : Manifest}
    (h : extract c t r dir = .ok (m, t')) : ∃ first rest, r.entries = first :: rest ∧ Extracted c t dir m first rest t' := by
  obtain ⟨first, rest, want, u, got, hentries, hname, hreg, hm, hformat, hwant, hdir, hu, hv, hgot⟩ := extract_ok h
  obtain ⟨hpaths, hnodup, hlook⟩ := wanted_ok hwant
  have hlook : ∀ p f, want.lookup p = some f ↔ f ∈ m.files ∧ f.path = p := by
    intro p f
    rw [hlook, Finmap.lookup_empty]
    grind
  obtain ⟨hall, honce, hnames, hfiles⟩ := extractFiles_ok (fun p f hf => ((hlook p f).mp hf).2) hv
  have hplain : ∀ e ∈ rest, AllPlain e.name := by
    intro e he
    obtain ⟨-, -, f, hf, -⟩ := hall e he
    obtain ⟨hmem, heq⟩ := (hlook _ _).mp hf
    exact heq ▸ checkPath_plain (hpaths f hmem).1
  have hbelow : ∀ e ∈ rest, Below (resolve dir) (join dir e.name) := fun e he => below_join hdir (hplain e he)
  refine ⟨first, rest, hentries, hname, hreg, hm, hformat, fun e he => (hall e he).2.1, ?_, honce, fun e he => ?_,
    hbelow, ?_, ?_, ?_⟩
  · refine (List.perm_ext_iff_of_nodup honce hnodup).mpr fun p => ?_
    constructor
    · intro hp
      obtain ⟨e, he, rfl⟩ := List.mem_map.mp hp
      obtain ⟨-, -, f, hf, -⟩ := hall e he
      obtain ⟨hmem, heq⟩ := (hlook _ _).mp hf
      exact List.mem_map.mpr ⟨f, hmem, heq⟩
    · intro hp
      obtain ⟨f, hf, rfl⟩ := List.mem_map.mp hp
      rcases (hnames _).mp (hgot f hf) with hnil | ⟨e, he, heq⟩
      · cases hnil
      · exact List.mem_map.mpr ⟨e, he, heq⟩
  · obtain ⟨-, -, f, hf, hsize, hsum⟩ := hall e he
    obtain ⟨hmem, heq⟩ := (hlook _ _).mp hf
    exact ⟨f, hmem, heq, hsize, hsum⟩
  · have hinj := List.Nodup.map_on (f := join dir) (fun a ha b hb hab => ?_) honce
    · rwa [List.map_map] at hinj
    · obtain ⟨e, he, rfl⟩ := List.mem_map.mp ha
      obtain ⟨e', he', rfl⟩ := List.mem_map.mp hb
      exact join_inj hdir (hplain e he) (hplain e' he') hab
  · intro q b hq
    rw [hfiles, FileTree.mkdirAll_file hu, hempty q hq]
    grind
  · intro q b hq
    rw [hfiles, FileTree.mkdirAll_file hu]
    grind

end

/-! ## What is written -/

/-- Sources whose paths are accepted and distinct, none a directory of another. -/
structure Apart (srcs : List Source) : Prop where
  accepted : ∀ s ∈ srcs, checkPath s.path = .ok ()
  distinct : (srcs.map (·.path)).Nodup
  flat : ∀ s ∈ srcs, ∀ s' ∈ srcs, ¬s.path ++ [47] <+: s'.path

/-- The file of each source holds the same at both reads. -/
def Unchanged (reads : Reads) (disk : Source → Str) (srcs : List Source) : Prop :=
  ∀ s ∈ srcs, reads.hashed s = .whole (disk s) ∧ reads.copied s = .whole (disk s)

def fileOf (c : Codec) (disk : Source → Str) (s : Source) : File := ⟨s.path, (disk s).length, c.sum (disk s)⟩

def entryOf (disk : Source → Str) (s : Source) : Entry := ⟨s.path, true, (disk s).length, disk s, Nat.le_refl _⟩

/-- The archive of files that do not change, with the text of their manifest. -/
def archive (disk : Source → Str) (srcs : List Source) (mj : Str) : Stream :=
  ⟨true, ⟨manifestName, true, mj.length, mj, Nat.le_refl _⟩ :: srcs.map (entryOf disk), .eof 0 true⟩

def manifestOf (c : Codec) (m : Manifest) (disk : Source → Str) (srcs : List Source) : Manifest :=
  { m with format := format, files := srcs.map (fileOf c disk) }

/-- Tar takes the paths. -/
def NoNul (srcs : List Source) : Prop := ∀ s ∈ srcs, s.path.contains 0 = false

section

variable {c : Codec} {reads : Reads} {disk : Source → Str} {srcs : List Source}

theorem describe_unchanged {hashed : Source → FileRead} (haccepted : ∀ s ∈ srcs, checkPath s.path = .ok ())
    (hdistinct : (srcs.map (·.path)).Nodup) (hread : ∀ s ∈ srcs, hashed s = .whole (disk s)) {seen : List Str}
    (hseen : ∀ s ∈ srcs, s.path ∉ seen) : describe c hashed seen srcs = .ok (srcs.map (fileOf c disk)) := by
  induction srcs generalizing seen with
  | nil => rfl
  | cons s srcs ih =>
    obtain ⟨hnew, hrest⟩ := List.nodup_cons.mp hdistinct
    have hs : seen.contains s.path = false :=
      Bool.eq_false_iff.mpr fun hc => hseen s List.mem_cons_self (List.contains_iff_mem.mp hc)
    have hnext : ∀ s' ∈ srcs, s'.path ∉ s.path :: seen := by grind
    rw [describe, haccepted s List.mem_cons_self, hs, hread s List.mem_cons_self,
      ih (fun s' hs' => haccepted s' (List.mem_cons_of_mem _ hs')) hrest
        (fun s' hs' => hread s' (List.mem_cons_of_mem _ hs')) hnext]
    rfl

theorem writeEntry_ok {name : Str} (hnul : name.contains 0 = false) (content : Str) :
    writeEntry name content.length (some content) = .ok ⟨name, true, content.length, content, Nat.le_refl _⟩ := by
  rw [writeEntry, hnul, if_neg Bool.false_ne_true]
  exact dif_pos rfl

theorem copyFiles_unchanged {copied : Source → FileRead} (hnul : NoNul srcs)
    (hread : ∀ s ∈ srcs, copied s = .whole (disk s)) : copyFiles c copied srcs (srcs.map (fileOf c disk)) =
      .ok (srcs.map (entryOf disk)) := by
  induction srcs with
  | nil => rfl
  | cons s srcs ih =>
    have hsize : (fileOf c disk s).size.toNat = (disk s).length := rfl
    have hcopy : copyFile c copied s (fileOf c disk s) = .ok (entryOf disk s) := by
      rw [copyFile, hread s List.mem_cons_self, hsize, FileRead.first, List.take_length]
      simp only [fileOf, bind, Except.bind, writeEntry_ok (hnul s List.mem_cons_self), beq_self_eq_true, check, if_true]
      rfl
    rw [List.map_cons, copyFiles, hcopy, ih (fun s' hs' => hnul s' (List.mem_cons_of_mem _ hs')) fun s' hs' =>
      hread s' (List.mem_cons_of_mem _ hs')]
    rfl

theorem copyFiles_nul {copied : Source → FileRead} {es : List Entry}
    (h : copyFiles c copied srcs (srcs.map (fileOf c disk)) = .ok es) : NoNul srcs := by
  induction srcs generalizing es with
  | nil => exact fun s hs => nomatch hs
  | cons s srcs ih =>
    simp only [List.map_cons, copyFiles, copyFile, bind_ok] at h
    obtain ⟨_, ⟨_, -, _, hentry, -⟩, _, hrest, -⟩ := h
    obtain ⟨hnul, -⟩ := ite_error_ok.mp hentry
    exact List.forall_mem_cons.mpr ⟨Bool.eq_false_iff.mpr hnul, ih hrest⟩

/-- `Write` once the files are described. -/
theorem write_described (ha : Apart srcs) (hun : Unchanged reads disk srcs) (m : Manifest) : write c reads m srcs = (do
    let mj ← found (c.marshal (manifestOf c m disk srcs)) .manifest
    let first ← writeEntry manifestName mj.length (some mj)
    let entries ← copyFiles c reads.copied srcs (srcs.map (fileOf c disk))
    return (manifestOf c m disk srcs, ⟨true, first :: entries, .eof 0 true⟩)) := by
  rw [write, describe_unchanged ha.accepted ha.distinct (fun s hs => (hun s hs).1) fun s _ => List.not_mem_nil]
  rfl

theorem write_unchanged (ha : Apart srcs) (hun : Unchanged reads disk srcs) (hnul : NoNul srcs)
    {m : Manifest} {mj : Str} (hmj : c.marshal (manifestOf c m disk srcs) = some mj) :
    write c reads m srcs = .ok (manifestOf c m disk srcs, archive disk srcs mj) := by
  have hname : manifestName.contains 0 = false := by decide +kernel
  have hcopy := copyFiles_unchanged (c := c) hnul fun s hs => (hun s hs).2
  rw [write_described ha hun, hmj]
  simp only [bind, Except.bind, found, Option.elim_some, writeEntry_ok hname, hcopy]
  rfl

/-- A `Write` that succeeds had names tar takes, and a manifest JSON could write. -/
theorem write_ok (ha : Apart srcs) (hun : Unchanged reads disk srcs) {m : Manifest} {x : Manifest × Stream}
    (h : write c reads m srcs = .ok x) :
    NoNul srcs ∧ ∃ mj, c.marshal (manifestOf c m disk srcs) = some mj := by
  simp only [write_described ha hun, bind_ok, found_ok] at h
  obtain ⟨mj, hmj, -, -, _, hcopy, -⟩ := h
  exact ⟨copyFiles_nul hcopy, mj, hmj⟩

end

/-! ## What is extracted again -/

/-- Some of the sources have been extracted: what is below the directory is a file of one of
    them or a directory on the way to one. -/
structure Laid (t : FileTree) (dir : Str) (done : List Source) : Prop where
  there : FileTree.stat t (resolve dir) = some .dir
  files : ∀ q b, Below (resolve dir) q → t.lookup q = some (.file b) → ∃ s ∈ done, q = join dir s.path
  dirs : ∀ q, Below (resolve dir) q → t.lookup q = some .dir → ∃ s ∈ done, ∃ ns, ns ≠ [] ∧ (join dir s.path).names = ns ++ q.names

section

variable {c : Codec} {disk : Source → Str} {t : FileTree} {dir : Str} {done : List Source} {s : Source}

/-- Where the names of one path are the last of another's, the first is a directory of the second. -/
theorem prefix_of_names {p q : Str} (hdir : dir ≠ []) (hp : AllPlain p) (hq : AllPlain q) {ns : List Str}
    (hns : ns ≠ []) (h : (join dir q).names = ns ++ (join dir p).names) : p ++ [47] <+: q := by
  rw [join_plain hdir hp, join_plain hdir hq] at h
  simp only [← List.append_assoc] at h
  have hrev := congrArg List.reverse (List.append_cancel_right h)
  rw [List.reverse_reverse, List.reverse_append, List.reverse_reverse] at hrev
  exact split_prefix (List.reverse_ne_nil_iff.mpr hns) hrev

structure Fits (done : List Source) (s : Source) : Prop where
  plain : AllPlain s.path
  plains : ∀ x ∈ done, AllPlain x.path
  nul : ∀ n ∈ elements s.path, n.contains 0 = false
  new : ∀ x ∈ done, x.path ≠ s.path
  above : ∀ x ∈ done, ¬x.path ++ [47] <+: s.path
  under : ∀ x ∈ done, ¬s.path ++ [47] <+: x.path

/-- No file of another source is on the way. -/
theorem Laid.way (hl : Laid t dir done) (hdir : dir ≠ []) (hs : Fits done s) {last : Str} {up : List Str}
    (hlast : (elements s.path).reverse = last :: up) :
    ∀ ns, ns <:+ up → ns ≠ [] → ∀ b, t.lookup ⟨(resolve dir).rooted, ns ++ (resolve dir).names⟩ ≠ some (.file b) := by
  intro ns hns hne b hb
  have hup : ∀ n ∈ ns, n ≠ dotdot := by
    intro n hn
    have hmem : n ∈ (elements s.path).reverse := hlast ▸ List.mem_cons_of_mem _ (hns.subset hn)
    exact (hs.plain n (List.mem_reverse.mp hmem)).ne_dotdot
  have hin : Below (resolve dir) ⟨(resolve dir).rooted, ns ++ (resolve dir).names⟩ := ⟨rfl, ns, hne, hup, rfl⟩
  obtain ⟨x, hx, hq⟩ := hl.files _ b hin hb
  obtain ⟨pre, rfl⟩ := hns
  refine hs.above x hx (prefix_of_names hdir (hs.plains x hx) hs.plain (List.cons_ne_nil last pre) ?_)
  rw [← hq, join_plain hdir hs.plain, hlast]
  simp only [List.cons_append, List.append_assoc]

/-- Nothing is where the file goes, also when the directories are made. -/
theorem Laid.free (hl : Laid t dir done) (hdir : dir ≠ []) (hs : Fits done s) {u : FileTree} {rooted : Bool}
    (hu : FileTree.mkdirAll t rooted (join dir s.path).names.tail = .ok u) : u.lookup (join dir s.path) = none := by
  have hbelow : Below (resolve dir) (join dir s.path) := below_join hdir hs.plain
  cases hn : u.lookup (join dir s.path) with
  | none => rfl
  | some n =>
    rcases FileTree.mkdirAll_new hu hn with hn | ⟨-, -, hsuf⟩
    · cases n with
      | file b =>
        obtain ⟨x, hx, hq⟩ := hl.files _ b hbelow hn
        exact absurd (join_inj hdir hs.plain (hs.plains x hx) hq).symm (hs.new x hx)
      | dir =>
        obtain ⟨x, hx, ns, hne, hnames⟩ := hl.dirs _ hbelow hn
        exact absurd (prefix_of_names hdir hs.plain (hs.plains x hx) hne hnames) (hs.under x hx)
    · obtain ⟨ns, hne, -, hnames⟩ := hbelow.2
      have hlen := hsuf.length_le
      have hpos : 0 < ns.length := List.length_pos_iff.mpr hne
      rw [List.length_tail, hnames, List.length_append] at hlen
      omega

theorem extractFile_made {u v : FileTree} (hu : FileTree.mkdirAll t (join dir s.path).rooted (join dir s.path).names.tail = .ok u)
    (hv : FileTree.createExcl u (join dir s.path) (disk s) = .ok v) :
      extractFile c t dir (entryOf disk s) (fileOf c disk s) = .ok v := by
  have hall : (disk s).take ((disk s).length + 1) = disk s := List.take_of_length_le (Nat.le_succ _)
  unfold extractFile
  simp only [fileOf, entryOf, Int.toNat_natCast, hall, hu, hv, Except.mapError, bind, Except.bind, beq_self_eq_true,
    decide_true, Bool.and_self,
    check, if_true]
  rfl

theorem Laid.extract (hl : Laid t dir done) (hdir : dir ≠ []) (hs : Fits done s) :
    ∃ t', extractFile c t dir (entryOf disk s) (fileOf c disk s) = .ok t' ∧ Laid t' dir (s :: done) := by
  obtain ⟨last, up, hlast⟩ := List.exists_cons_of_ne_nil (List.reverse_ne_nil_iff.mpr (split_ne_nil s.path 47))
  have hmem : ∀ n ∈ last :: up, n ∈ elements s.path := fun n hn => List.mem_reverse.mp (hlast ▸ hn)
  have hdst := join_plain hdir hs.plain
  rw [hlast, List.cons_append] at hdst
  obtain ⟨u, hu⟩ : ∃ u, FileTree.mkdirAll t (join dir s.path).rooted (join dir s.path).names.tail = .ok u := by
    rw [hdst]
    exact FileTree.mkdirAll_below hl.there (hl.way hdir hs hlast) fun n hn => hs.nul n (hmem n (List.mem_cons_of_mem _ hn))
  have hnone := hl.free hdir hs hu
  have hcreate : FileTree.createExcl u (join dir s.path) (disk s) = .ok (u.insert (join dir s.path) (.file (disk s))) := by
    refine FileTree.createExcl_new ?_ ?_ (FileTree.mkdirAll_dir hu)
    · rw [hdst]
      exact hs.nul last (hmem last List.mem_cons_self)
    · rw [hdst] at hnone ⊢
      rw [FileTree.stat_of_plain (hs.plain last (hmem last List.mem_cons_self))]
      exact hnone
  have hext : extractFile c t dir (entryOf disk s) (fileOf c disk s) = .ok _ := extractFile_made hu hcreate
  refine ⟨_, hext, ?_, fun q b hq hb => ?_, fun q hq hd => ?_⟩
  · refine FileTree.stat_mono (fun hd => ?_) hl.there
    have hd := FileTree.mkdirAll_keeps hu hd
    rw [Finmap.lookup_insert_of_ne]
    · exact hd
    · intro heq
      rw [heq, hnone] at hd
      cases hd
  · obtain ⟨-, -, htree⟩ := extractFile_ok rfl hext
    rcases (htree q b).mp hb with hb | ⟨hq, -⟩
    · obtain ⟨x, hx, hq⟩ := hl.files q b hq hb
      exact ⟨x, List.mem_cons_of_mem _ hx, hq⟩
    · exact ⟨s, List.mem_cons_self, hq⟩
  · have hne : q ≠ join dir s.path := by
      rintro rfl
      rw [Finmap.lookup_insert] at hd
      cases hd
    rw [Finmap.lookup_insert_of_ne _ hne] at hd
    rcases FileTree.mkdirAll_new hu hd with hd | ⟨-, -, pre, hpre⟩
    · obtain ⟨x, hx, hns⟩ := hl.dirs q hq hd
      exact ⟨x, List.mem_cons_of_mem _ hx, hns⟩
    · grind

/-- The loop gets through the sources that are left. -/
theorem extractFiles_complete {want : GoMap Str File} {srcs rest : List Source} (ha : Apart srcs) (hdir : dir ≠ [])
    (hnul : NoNul srcs) (hw : ∀ s ∈ srcs, want.lookup s.path = some (fileOf c disk s))
    (hsub : ∀ s ∈ rest ++ done, s ∈ srcs) (hnodup : (rest.map (·.path)).Nodup) (hnew : ∀ s ∈ rest, ∀ x ∈ done, x.path ≠ s.path)
    (hl : Laid t dir done) : ∃ x, extractFiles c dir want (done.map (·.path)) t (rest.map (entryOf disk)) = .ok x := by
  induction rest generalizing t done with
  | nil => exact ⟨_, rfl⟩
  | cons s rest ih =>
    obtain ⟨hs, hrest⟩ := List.nodup_cons.mp hnodup
    have hmem : s ∈ srcs := hsub s List.mem_cons_self
    have hold : ∀ x ∈ done, x ∈ srcs := fun x hx => hsub x (List.mem_append_right _ hx)
    have hfits : Fits done s := by
      refine ⟨checkPath_plain (ha.accepted s hmem), fun x hx => checkPath_plain (ha.accepted x (hold x hx)), fun n hn => ?_,
        hnew s List.mem_cons_self, fun x hx => ha.flat x (hold x hx) s hmem, fun x hx => ha.flat s hmem x (hold x hx)⟩
      refine Bool.eq_false_iff.mpr fun h0 => Bool.eq_false_iff.mp (hnul s hmem) ?_
      exact List.contains_iff_mem.mpr ((mem_of_split hn).2 0 (List.contains_iff_mem.mp h0))
    obtain ⟨t', ht', hl'⟩ : ∃ t', extractFile c t dir (entryOf disk s) (fileOf c disk s) = .ok t' ∧ Laid t' dir (s :: done) :=
      hl.extract hdir hfits
    have hgot : (done.map (·.path)).contains s.path = false := by grind
    have hsub' : ∀ y ∈ rest ++ s :: done, y ∈ srcs := fun y hy => hsub y (List.perm_middle.mem_iff.mp hy)
    have hnew' : ∀ y ∈ rest, ∀ x ∈ s :: done, x.path ≠ y.path := by grind
    obtain ⟨x, hx⟩ := ih hsub' hrest hnew' hl'
    refine ⟨x, ?_⟩
    rw [List.map_cons, extractFiles]
    simp only [entryOf] at ht' hx ⊢
    rw [hw s hmem]
    simp only [hgot, check, Bool.not_false, if_true, bind, Except.bind, fileOf, Bool.true_and, decide_true] at ht' hx ⊢
    rw [ht']
    exact hx

theorem wanted_complete {files : List File} (hfiles : ∀ f ∈ files, checkPath f.path = .ok () ∧ 0 ≤ f.size)
    (hnodup : (files.map (·.path)).Nodup)
    {want : GoMap Str File} (hnew : ∀ f ∈ files, want.lookup f.path = none) : ∃ want', wanted want files = .ok want' := by
  induction files generalizing want with
  | nil => exact ⟨want, rfl⟩
  | cons f files ih =>
    obtain ⟨hf, hrest⟩ := List.nodup_cons.mp hnodup
    obtain ⟨hpath, hsize⟩ := hfiles f List.mem_cons_self
    have hnext : ∀ g ∈ files, (want.insert f.path f).lookup g.path = none := by
      intro g hg
      rw [Finmap.lookup_insert_of_ne]
      · exact hnew g (List.mem_cons_of_mem _ hg)
      · intro heq
        exact hf (List.mem_map.mpr ⟨g, hg, heq⟩)
    obtain ⟨want', hwant⟩ := ih (fun g hg => hfiles g (List.mem_cons_of_mem _ hg)) hrest hnext
    refine ⟨want', ?_⟩
    rw [wanted, hpath, hnew f List.mem_cons_self, decide_eq_true hsize]
    exact hwant

theorem extract_complete {srcs : List Source} {m : Manifest} {mj : Str} (hd : EmptyDir t dir) (ha : Apart srcs)
    (hnul : NoNul srcs) (hdecode : c.decode mj = some m) (hformat : m.format = format)
    (hfiles : m.files = srcs.map (fileOf c disk)) (hlen : mj.length ≤ maxManifestSize) :
    ∃ t', extract c t (archive disk srcs mj) dir = .ok (m, t') ∧
      ∀ s ∈ srcs, t'.lookup (join dir s.path) = some (.file (disk s)) := by
  have hpaths : m.files.map (·.path) = srcs.map (·.path) := by
    rw [hfiles, List.map_map]
    rfl
  obtain ⟨want, hwant⟩ : ∃ want, wanted ∅ m.files = .ok want := by
    refine wanted_complete (fun f hf => ?_) (hpaths ▸ ha.distinct) fun f _ => Finmap.lookup_empty _
    rw [hfiles] at hf
    obtain ⟨s, hs, rfl⟩ := List.mem_map.mp hf
    exact ⟨ha.accepted s hs, Int.natCast_nonneg _⟩
  obtain ⟨-, -, hlook⟩ := wanted_ok hwant
  have hw : ∀ s ∈ srcs, want.lookup s.path = some (fileOf c disk s) := by
    intro s hs
    refine (hlook _ _).mpr (.inr ⟨?_, rfl⟩)
    rw [hfiles]
    exact List.mem_map_of_mem hs
  have hpath : ∀ p f, want.lookup p = some f → f.path = p := by
    intro p f hf
    rcases (hlook p f).mp hf with hf | hf
    · cases hf
    · exact hf.2
  have hmk : FileTree.mkdirAll t (resolve dir).rooted (resolve dir).names = .ok t := FileTree.mkdirAll_there hd.there
  have hlaid : Laid t dir [] := by
    refine ⟨hd.there, fun q b hq hb => ?_, fun q hq hb => ?_⟩
    · rw [hd.empty q hq] at hb
      cases hb
    · rw [hd.empty q hq] at hb
      cases hb
  obtain ⟨⟨got, t'⟩, hx⟩ : ∃ x, extractFiles c dir want [] t (srcs.map (entryOf disk)) = .ok x :=
    extractFiles_complete ha hd.named hnul hw (fun s hs => List.append_nil srcs ▸ hs) ha.distinct
      (fun s _ x hx => absurd hx List.not_mem_nil) hlaid
  obtain ⟨-, -, hgot, hfinal⟩ := extractFiles_ok hpath hx
  have hall : (m.files.all fun f => got.contains f.path) = true := by
    refine List.all_eq_true.mpr fun f hf => List.contains_iff_mem.mpr ((hgot _).mpr (.inr ?_))
    rw [hfiles] at hf
    obtain ⟨s, hs, rfl⟩ := List.mem_map.mp hf
    exact ⟨entryOf disk s, List.mem_map_of_mem hs, rfl⟩
  refine ⟨t', ?_, fun s hs => (hfinal _ _).mpr (.inr ⟨entryOf disk s, List.mem_map_of_mem hs, rfl, rfl⟩)⟩
  unfold extract archive
  simp only [check, if_true, bind, Except.bind, beq_self_eq_true, Bool.and_self, decide_eq_true hlen, List.take_of_length_le hlen,
    hdecode, found, Option.elim_some, hformat, hwant, bne_iff_ne.mpr hd.named, hmk, Except.mapError, hx, hall]
  rfl

end

/-- JSON gives back what it was given, with its strings coerced to valid UTF-8: what is valid stays,
    as the digits of a sum do. -/
structure Codec.Sound (c : Codec) (coerce : Str → Str) : Prop where
  decode : ∀ m text, c.marshal m = some text → ∃ m', c.decode text = some m' ∧ m'.format = m.format ∧
    m'.files = m.files.map fun f => ⟨coerce f.path, f.size, coerce f.sha256⟩
  valid : ∀ s, coerce (coerce s) = coerce s
  hex : ∀ b, coerce (c.sum b) = c.sum b

section

variable {c : Codec} {coerce : Str → Str} {t t' : FileTree} {dir : Str} {reads : Reads} {disk : Source → Str} {srcs : List Source}
  {m m' : Manifest} {mj : Str}

/-- What the archive's manifest is read as. -/
theorem Codec.Sound.manifest (hc : c.Sound coerce) (hmj : c.marshal (manifestOf c m disk srcs) = some mj) :
    ∃ m', c.decode mj = some m' ∧ m'.format = format ∧
      m'.files = srcs.map fun s => ⟨coerce s.path, (disk s).length, c.sum (disk s)⟩ := by
  obtain ⟨m', hdecode, hformat, hfiles⟩ := hc.decode _ _ hmj
  refine ⟨m', hdecode, hformat, hfiles.trans ?_⟩
  rw [manifestOf, List.map_map]
  refine List.map_congr_left fun s _ => ?_
  rw [Function.comp_apply, fileOf, hc.hex]

/-- An archive that is taken has a short manifest, and paths that came back as they were. -/
theorem extract_carried (hc : c.Sound coerce) (hd : EmptyDir t dir) (hmj : c.marshal (manifestOf c m disk srcs) = some mj)
    (h : extract c t (archive disk srcs mj) dir = .ok (m', t')) :
    mj.length ≤ maxManifestSize ∧ ∀ s ∈ srcs, coerce s.path = s.path := by
  obtain ⟨first, rest, hentries, hx⟩ := extract_extracted hd.empty h
  obtain ⟨rfl, rfl⟩ := List.cons.inj hentries
  obtain ⟨m'', hdecode, -, hfiles⟩ := hc.manifest hmj
  have hm : m' = m'' := Option.some.inj (hx.manifest.symm.trans hdecode)
  constructor
  · by_contra hlong
    simp [extract, archive, check, bind, Except.bind, hlong] at h
  · intro s hs
    have hmem : s.path ∈ m'.files.map (·.path) := hx.names.subset (List.mem_map.mpr ⟨entryOf disk s, List.mem_map_of_mem hs, rfl⟩)
    rw [hm, hfiles, List.map_map] at hmem
    obtain ⟨s', -, hpath⟩ := List.mem_map.mp hmem
    rw [← hpath]
    exact hc.valid _

end

/-- Whatever `Extract` takes into an empty directory it has verified and left there exactly; and
it takes what `Write` made of sources apart that did not change, and gives the same files, exactly
when tar and JSON carry the paths and the manifest is no longer than it reads. -/
theorem backup_exact {c : Codec} {coerce : Str → Str} (hc : c.Sound coerce) {t : FileTree} {dir : Str} (hd : EmptyDir t dir) :
    (∀ r m t', extract c t r dir = .ok (m, t') → ∃ first rest, r.entries = first :: rest ∧ Extracted c t dir m first rest t') ∧
      ∀ srcs reads disk m, Apart srcs → Unchanged reads disk srcs →
        ((∃ m' r m'' t', write c reads m srcs = .ok (m', r) ∧ extract c t r dir = .ok (m'', t') ∧ m''.files = m'.files ∧
            ∀ s ∈ srcs, t'.lookup (join dir s.path) = some (.file (disk s))) ↔
          (∀ s ∈ srcs, s.path.contains 0 = false ∧ coerce s.path = s.path) ∧
            ∃ mj, c.marshal (manifestOf c m disk srcs) = some mj ∧ mj.length ≤ maxManifestSize) := by
  refine ⟨fun r m t' h => extract_extracted hd.empty h, fun srcs reads disk m ha hun => ⟨?_, ?_⟩⟩
  · rintro ⟨m', r, m'', t', hwrite, hextract, -⟩
    obtain ⟨hnul, mj, hmj⟩ := write_ok ha hun hwrite
    rw [write_unchanged ha hun hnul hmj] at hwrite
    cases hwrite
    obtain ⟨hlen, hcarried⟩ := extract_carried hc hd hmj hextract
    exact ⟨fun s hs => ⟨hnul s hs, hcarried s hs⟩, mj, hmj, hlen⟩
  · rintro ⟨hpaths, mj, hmj, hlen⟩
    have hnul : NoNul srcs := fun s hs => (hpaths s hs).1
    obtain ⟨m'', hdecode, hformat, hfiles⟩ := hc.manifest hmj
    have hsame : m''.files = srcs.map (fileOf c disk) := by
      rw [hfiles]
      refine List.map_congr_left fun s hs => ?_
      rw [(hpaths s hs).2, fileOf]
    obtain ⟨t', ht', hback⟩ := extract_complete hd ha hnul hdecode hformat hsame hlen
    exact ⟨_, _, m'', t', write_unchanged ha hun hnul hmj, ht', hsame, hback⟩

/-! A server's key and its TLS key, into the working directory, with the JSON text of their manifest
and their SHA-256. -/

def keys : List Source :=
  [⟨str "server.key", str "/var/lib/thawr/server.key"⟩, ⟨str "tls/key.pem", str "/var/lib/thawr/tls/key.pem"⟩]

def keyDisk (s : Source) : Str := if s.path = str "server.key" then str "server" else str "tls"

def keyReads : Reads := ⟨fun s => .whole (keyDisk s), fun s => .whole (keyDisk s)⟩

def keySum (b : Str) : Str :=
  if b = str "server" then str "b3eacd33433b31b5252351032c9b3e7a2e7aa7738d5decdf0dd6c62680853c06"
  else str "b7e651cbb43ba0ca3498759c8c3596c3a11a199004cd9e5a198d50d4585ec8c5"

def keyManifest : Manifest :=
  { format := 1, files := [⟨str "server.key", 6, keySum (str "server")⟩, ⟨str "tls/key.pem", 3, keySum (str "tls")⟩] }

def keyText : Str :=
  str "\x7b\n  \"format\": 1,\n  \"thawr_version\": \"\",\n  \"schema_version\": 0,\n" ++
  str "  \"created\": \"0001-01-01T00:00:00Z\",\n  \"server_key_fingerprint\": \"\",\n  \"tls_mode\": \"\",\n" ++
  str "  \"files\": [\n    \x7b\n      \"path\": \"server.key\",\n      \"size\": 6,\n" ++
  str "      \"sha256\": \"b3eacd33433b31b5252351032c9b3e7a2e7aa7738d5decdf0dd6c62680853c06\"\n    \x7d,\n" ++
  str "    \x7b\n      \"path\": \"tls/key.pem\",\n      \"size\": 3,\n" ++
  str "      \"sha256\": \"b7e651cbb43ba0ca3498759c8c3596c3a11a199004cd9e5a198d50d4585ec8c5\"\n    \x7d\n  ]\n\x7d"

def keyCodec : Codec where
  marshal m := if m = keyManifest then some keyText else none
  decode text := if text = keyText then some keyManifest else none
  sum := keySum

theorem backup_exact_keys :
    ∃ m r m' t', write keyCodec keyReads {} keys = .ok (m, r) ∧ extract keyCodec ∅ r (str ".") = .ok (m', t') ∧
      t'.lookup ⟨false, [str "key.pem", str "tls"]⟩ = some (.file (str "tls")) ∧
      ∃ first rest, r.entries = first :: rest ∧ Extracted keyCodec ∅ (str ".") m' first rest t' := by
  -- the strings are ASCII, which is valid
  have hsound : keyCodec.Sound id := by
    refine ⟨fun m text hm => ?_, fun _ => rfl, fun _ => rfl⟩
    simp only [keyCodec, Option.ite_some_none_eq_some] at hm ⊢
    obtain ⟨rfl, rfl⟩ := hm
    exact ⟨keyManifest, ⟨rfl, rfl⟩, rfl, (List.map_id _).symm⟩
  have hempty : EmptyDir ∅ (str ".") := ⟨by decide +kernel, by decide +kernel, fun q _ => Finmap.lookup_empty q⟩
  have hapart : Apart keys := ⟨by decide +kernel, by decide +kernel, by decide +kernel⟩
  obtain ⟨hread, hback⟩ := backup_exact hsound hempty
  obtain ⟨m, r, m', t', hwrite, hextract, -, hsame⟩ := (hback keys keyReads keyDisk {} hapart fun _ _ => ⟨rfl, rfl⟩).mpr
    ⟨by decide +kernel, keyText, by decide +kernel, by decide +kernel⟩
  refine ⟨m, r, m', t', hwrite, hextract, ?_, hread r m' t' hextract⟩
  have hplace : join (str ".") (str "tls/key.pem") = ⟨false, [str "key.pem", str "tls"]⟩ := by decide +kernel
  rw [← hplace]
  exact hsame ⟨str "tls/key.pem", str "/var/lib/thawr/tls/key.pem"⟩ (List.mem_cons_of_mem _ List.mem_cons_self)

/-! ## Manifests that are too long -/

section

variable {p : Str}

theorem checkPath_digits (hne : p ≠ []) (hp : ∀ c ∈ p, isDigit c = true) : checkPath p = .ok () := by
  have hnot : ∀ {c : UInt8}, isDigit c = false → c ∉ p := by
    intro c hc hmem
    rw [hp c hmem] at hc
    cases hc
  have hone : elements p = [p] := (split_eq p 47).trans (List.splitOn_eq_singleton (hnot (by decide)))
  have hdot : (46 : UInt8) ∉ p := hnot (by decide)
  have hname : Plain p := ⟨hne, fun h => hdot (h ▸ List.mem_cons_self), fun h => hdot (h ▸ List.mem_cons_self)⟩
  have hplain : AllPlain p := by
    intro n hn
    rw [hone] at hn
    rw [List.mem_singleton.mp hn]
    exact hname
  have hmanifest : p ≠ manifestName := by
    rintro rfl
    exact hnot (c := 109) (by decide) (by decide +kernel)
  have hback : p.contains 92 = false := Bool.eq_false_iff.mpr fun h => hnot (by decide) (List.contains_iff_mem.mp h)
  have hup : ¬str "../" <+: p := by
    intro h
    exact hdot (h.subset (by decide +kernel))
  unfold checkPath
  rw [if_neg, if_neg]
  · rw [hone]
    simp only [List.any_cons, List.any_nil, Bool.or_false, beq_iff_eq]
    exact hname.ne_dotdot
  · simp only [not_or, not_not, Bool.not_eq_true]
    exact ⟨hne, hmanifest, hback, not_abs_of_plain hplain, clean_plain hplain, hname.ne_dot, hup, hname.ne_dotdot⟩

end

def numbered (n : Nat) : List Source := (List.range n).map fun i => ⟨decimal i, decimal i⟩

theorem numbered_apart (n : Nat) : Apart (numbered n) := by
  have hdigits : ∀ s ∈ numbered n, s.path ≠ [] ∧ ∀ c ∈ s.path, isDigit c = true := by
    intro s hs
    obtain ⟨i, -, rfl⟩ := List.mem_map.mp hs
    exact ⟨decimal_ne_nil i, decimal_digits i⟩
  refine ⟨fun s hs => checkPath_digits (hdigits s hs).1 (hdigits s hs).2, ?_, fun s _ s' hs' h => ?_⟩
  · rw [numbered, List.map_map]
    refine List.Nodup.map (fun i j hij => ?_) List.nodup_range
    have hval := congrArg digitsVal hij
    rwa [Function.comp_apply, Function.comp_apply, digitsVal_decimal, digitsVal_decimal] at hval
  · have hslash : (47 : UInt8) ∈ s'.path := h.subset (List.mem_append_right _ List.mem_cons_self)
    exact absurd ((hdigits s' hs').2 _ hslash) (by decide)

theorem numbered_long (n : Nat) {c : Codec} {disk : Source → Str} {m : Manifest} {mj : Str} (hsum : ∀ b, (c.sum b).length = 64)
    (htext : ∀ m text, c.marshal m = some text → (m.files.flatMap (·.sha256)).length ≤ text.length)
    (hmj : c.marshal (manifestOf c m disk (numbered n)) = some mj) : n * 64 ≤ mj.length := by
  have hlen : ∀ srcs : List Source, ((srcs.map (fileOf c disk)).flatMap (·.sha256)).length = srcs.length * 64 := by
    intro srcs
    induction srcs with
    | nil => rfl
    | cons s srcs ih =>
      have hs : (fileOf c disk s).sha256.length = 64 := hsum _
      rw [List.map_cons, List.flatMap_cons, List.length_append, ih, hs, List.length_cons]
      omega
  have hle := htext _ _ hmj
  rwa [manifestOf, hlen, numbered, List.length_map, List.length_range] at hle

/-- Over sixteen thousand files that do not change. However JSON writes them, the sums alone, of
64 digits each, make a manifest of more than a mebibyte: `Write` succeeds, and `Extract` takes
its archive into no directory. -/
theorem a_long_manifest_is_refused :
    ∃ srcs, Apart srcs ∧ ∀ (c : Codec) (reads : Reads) (disk : Source → Str) (m : Manifest) (mj : Str),
      (∀ b, (c.sum b).length = 64) →
      (∀ m text, c.marshal m = some text → (m.files.flatMap (·.sha256)).length ≤ text.length) → Unchanged reads disk srcs →
      c.marshal (manifestOf c m disk srcs) = some mj →
      ∃ m' r, write c reads m srcs = .ok (m', r) ∧ ∀ t dir, extract c t r dir = .error (.invalid .firstEntry) := by
  refine ⟨numbered 16385, numbered_apart _, ?_⟩
  intro c reads disk m mj hsum htext hun hmj
  have hnul : NoNul (numbered 16385) := by
    intro s hs
    obtain ⟨i, -, rfl⟩ := List.mem_map.mp hs
    refine Bool.eq_false_iff.mpr fun h0 => ?_
    exact absurd (decimal_digits i 0 (List.contains_iff_mem.mp h0)) (by decide)
  have hlong : ¬mj.length ≤ maxManifestSize := by
    have hle := numbered_long 16385 hsum htext hmj
    unfold maxManifestSize
    omega
  refine ⟨_, _, write_unchanged (numbered_apart _) hun hnul hmj, fun t dir => ?_⟩
  unfold extract archive
  simp only [check, if_true, bind, Except.bind, beq_self_eq_true, Bool.and_self, decide_eq_false hlong, Bool.and_false,
    Bool.false_eq_true, if_false]

end Thawr.Backup
