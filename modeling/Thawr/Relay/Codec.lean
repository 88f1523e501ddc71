/-
  Thawr.Relay.Codec — frames written to a stream and read off it again
  (`internal/relay/frame.go`).

  A frame goes out as its header and its payload. A reader asks for one frame after another
  with one buffer, so each frame's payload is what the buffer holds right after its own read
  (`readFrames`).

  - `readFrame_header`: what a read does once a header is there, whatever follows it.
  - `readFrames_cut`: a stream cut anywhere gives the frames before the cut, and then the end
    of the stream or, inside a frame, `ErrTruncated`.
  - `readFrame_oversize`: a length over the maximum is refused with the payload unread.
-/

import Thawr.Relay.Frame

namespace Thawr.Relay

open Go

/-! ## Writing -/

def Frame.header (f : Frame) : List UInt8 := f.type :: (f.key.bytes ++ beBytes 2 f.payload.length)

def Frame.append (f : Frame) (buf : List UInt8) : Except ReadErr (List UInt8) :=
  if maxPayload < f.payload.length then .error (.oversize f.payload.length)
  else .ok (buf ++ [f.type] ++ f.key.bytes ++ beBytes 2 f.payload.length ++ f.payload)

/-- `WriteFrame` to a writer that takes what it is given: the stream after it. -/
def writeFrame (stream : List UInt8) (f : Frame) : Except ReadErr (List UInt8) := (f.append []).map (stream ++ ·)

def Frame.encode (f : Frame) : List UInt8 := f.header ++ f.payload

def Sendable (fs : List Frame) : Prop := ∀ f ∈ fs, f.payload.length ≤ maxPayload

section

variable {f : Frame} {fs : List Frame} {buf part : List UInt8} {c : Conn}

@[simp] theorem header_length (f : Frame) : f.header.length = headerLen := by
  rw [Frame.header, List.length_cons, List.length_append, f.key.size, beBytes_length]
  rfl

@[simp] theorem encode_length (f : Frame) : f.encode.length = headerLen + f.payload.length := by
  rw [Frame.encode, List.length_append, header_length]

theorem writeFrame_ok (h : f.payload.length ≤ maxPayload) (stream : List UInt8) :
    writeFrame stream f = .ok (stream ++ f.encode) := by
  have happend : f.append [] = .ok f.encode := by
    rw [Frame.append, if_neg (Nat.not_lt.mpr h)]
    simp only [Frame.encode, Frame.header, List.nil_append, List.cons_append, List.append_assoc]
  rw [writeFrame, happend]
  rfl

theorem writeFrames_ok (h : Sendable fs) (stream : List UInt8) :
    fs.foldlM writeFrame stream = .ok (stream ++ fs.flatMap Frame.encode) := by
  induction fs generalizing stream with
  | nil => rw [List.flatMap_nil, List.append_nil]; rfl
  | cons f fs ih =>
    rw [List.foldlM_cons, writeFrame_ok (h f List.mem_cons_self), List.flatMap_cons, ← List.append_assoc]
    exact ih (fun g hg => h g (List.mem_cons_of_mem _ hg)) _

/-! ## One read -/

theorem blit_zero (buf b : List UInt8) : blit buf 0 b = b ++ buf.drop b.length := by
  simp [blit]

theorem blit_length {i : Nat} {b : List UInt8} (h : i + b.length ≤ buf.length) : (blit buf i b).length = buf.length := by
  simp only [blit, List.length_append, List.length_take, List.length_drop]
  omega

theorem header_key (t : List UInt8) : Arr.at 32 (f.header ++ t) 1 = f.key := by
  rw [Frame.header, List.cons_append, List.append_assoc]
  exact Arr.at_append (l := [f.type]) f.key rfl

theorem header_size (h : f.payload.length ≤ maxPayload) (t : List UInt8) :
    beNat (((f.header ++ t).drop 33).take 2) = f.payload.length := by
  have hdrop : (f.header ++ t).drop 33 = beBytes 2 f.payload.length ++ t := by
    rw [Frame.header, List.cons_append, List.drop_succ_cons, List.append_assoc]
    exact List.drop_left' f.key.size
  have hlt : f.payload.length < 256 ^ 2 := by
    unfold maxPayload at h
    omega
  rw [hdrop, List.take_left' (beBytes_length _ _), beNat_beBytes hlt]

/-- Once the header is there, the payload decides. -/
theorem readFrame_header (hbuf : headerLen + maxPayload ≤ buf.length) (hf : f.payload.length ≤ maxPayload) (rest : List UInt8)
    (e : IoErr) :
    readFrame ⟨f.header ++ rest, e⟩ buf =
      if rest.length < f.payload.length then
        (.error (if e = .eof then .truncated else .io e), blit (f.header ++ buf.drop headerLen) headerLen rest, ⟨[], e⟩)
      else
        (.ok ⟨f.type, f.key, f.payload.length⟩, blit (f.header ++ buf.drop headerLen) headerLen (rest.take f.payload.length),
          ⟨rest.drop f.payload.length, e⟩) := by
  have htake : (f.header ++ rest).take headerLen = f.header := List.take_left' (header_length f)
  have hdrop : (f.header ++ rest).drop headerLen = rest := List.drop_left' (header_length f)
  have hlen : ¬(f.header ++ rest).length < headerLen := by
    rw [List.length_append, header_length]
    omega
  unfold readFrame
  rw [if_neg (Nat.not_lt.mpr hbuf)]
  simp only
  rw [if_neg hlen, htake, hdrop, blit_zero, header_length, header_size hf, header_key, if_neg (Nat.not_lt.mpr hf)]
  rfl

theorem readFrame_encode (hbuf : headerLen + maxPayload ≤ buf.length) (hf : f.payload.length ≤ maxPayload) (rest : List UInt8)
    (e : IoErr) :
    ∃ h buf', readFrame ⟨f.encode ++ rest, e⟩ buf = (.ok h, buf', ⟨rest, e⟩) ∧ h.frame buf' = f ∧ buf'.length = buf.length := by
  have hread := readFrame_header hbuf hf (f.payload ++ rest) e
  have hlong : ¬(f.payload ++ rest).length < f.payload.length := by
    rw [List.length_append]
    omega
  rw [if_neg hlong, List.take_left, List.drop_left, ← List.append_assoc] at hread
  refine ⟨_, _, hread, ?_, ?_⟩
  · have hblit : blit (f.header ++ buf.drop headerLen) headerLen f.payload =
        f.header ++ (f.payload ++ (f.header ++ buf.drop headerLen).drop (headerLen + f.payload.length)) := by
      rw [blit, List.take_left' (header_length f), List.append_assoc]
    rw [Header.frame, hblit, List.drop_left' (header_length f), List.take_left]
  · have hsame : (f.header ++ buf.drop headerLen).length = buf.length := by
      rw [List.length_append, header_length, List.length_drop]
      omega
    rw [blit_length, hsame]
    rw [hsame]
    omega

/-- A stream that ends where a frame would start. -/
theorem readFrame_nil (hbuf : headerLen + maxPayload ≤ buf.length) : (readFrame ⟨[], .eof⟩ buf).1 = .error (.io .eof) := by
  have hzero : ([] : List UInt8).length < headerLen := by decide
  unfold readFrame
  rw [if_neg (Nat.not_lt.mpr hbuf), if_pos hzero, if_neg fun h => h.2 rfl]

/-- A stream that ends inside a frame. -/
theorem readFrame_torn (hbuf : headerLen + maxPayload ≤ buf.length) (hf : f.payload.length ≤ maxPayload)
    (hpart : part <+: f.encode) (hlt : part.length < f.encode.length) (hne : part ≠ []) :
    (readFrame ⟨part, .eof⟩ buf).1 = .error .truncated := by
  by_cases hshort : part.length < headerLen
  · unfold readFrame
    grind
  · -- the header is complete, so the cut is in the payload
    obtain ⟨rest, rfl⟩ : f.header <+: part := by
      refine List.prefix_of_prefix_length_le (List.prefix_append _ f.payload) hpart ?_
      rw [header_length]
      exact Nat.not_lt.mp hshort
    rw [encode_length, List.length_append, header_length] at hlt
    rw [readFrame_header hbuf hf, if_pos (by omega), if_pos rfl]

/-- A header that announces too much is refused, and what follows it stays unread. -/
theorem readFrame_oversize (hbuf : headerLen + maxPayload ≤ buf.length) (hlen : headerLen ≤ c.bytes.length)
    (hbig : maxPayload < beNat ((c.bytes.drop 33).take 2)) :
    ∃ buf', readFrame c buf = (.error (.oversize (beNat ((c.bytes.drop 33).take 2))), buf',
      { c with bytes := c.bytes.drop headerLen }) := by
  have hfield : ((blit buf 0 (c.bytes.take headerLen)).drop 33).take 2 = (c.bytes.drop 33).take 2 := by
    have h35 : (c.bytes.take headerLen).length = headerLen := List.length_take_of_le hlen
    have h2 : 2 ≤ ((c.bytes.take headerLen).drop 33).length := by
      rw [List.length_drop, h35]
      decide
    rw [blit_zero, List.drop_append_of_le_length (by rw [h35]; decide), List.take_append_of_le_length h2, List.drop_take,
      List.take_take]
    rfl
  refine ⟨blit buf 0 (c.bytes.take headerLen), ?_⟩
  unfold readFrame
  grind

/-! ## Reading on -/

theorem readFrame_ok_lt {h : Header} {buf' : List UInt8} {c' : Conn} (hr : readFrame c buf = (.ok h, buf', c')) :
    c'.bytes.length < c.bytes.length := by
  unfold readFrame at hr
  simp only at hr
  repeat' split at hr
  all_goals cases hr
  rename_i hlen _ _
  simp only [List.length_drop]
  unfold headerLen at *
  omega

/-- Frames read one after another with one buffer, and the error that ends it. -/
def readFrames (c : Conn) (buf : List UInt8) : List Frame × ReadErr :=
  match _hr : readFrame c buf with
  | (.error e, _, _) => ([], e)
  | (.ok h, buf', c') => (h.frame buf' :: (readFrames c' buf').1, (readFrames c' buf').2)
  termination_by c.bytes.length
  decreasing_by all_goals exact readFrame_ok_lt _hr

theorem readFrames_error {e : ReadErr} (h : (readFrame c buf).1 = .error e) : readFrames c buf = ([], e) := by
  rw [readFrames]
  grind

theorem readFrames_ok {h : Header} {buf' : List UInt8} {c' : Conn} (hr : readFrame c buf = (.ok h, buf', c')) :
    readFrames c buf = (h.frame buf' :: (readFrames c' buf').1, (readFrames c' buf').2) := by
  rw [readFrames]
  grind

/-- A stream of frames cut after any number of bytes: the frames that are complete, and then its
    end at a frame boundary or a truncated frame. -/
theorem readFrames_cut (hfs : Sendable fs) (hbuf : headerLen + maxPayload ≤ buf.length)
    (hpart : part <+: fs.flatMap Frame.encode) :
    ∃ k ≤ fs.length, (fs.take k).flatMap Frame.encode <+: part ∧
      (k < fs.length → part.length < ((fs.take (k + 1)).flatMap Frame.encode).length) ∧
      readFrames ⟨part, .eof⟩ buf = (fs.take k, if part = (fs.take k).flatMap Frame.encode then .io .eof else .truncated) := by
  induction fs generalizing part buf with
  | nil =>
    obtain rfl := List.prefix_nil.mp hpart
    refine ⟨0, Nat.le_refl _, List.prefix_rfl, fun h => absurd h (Nat.lt_irrefl _), ?_⟩
    exact readFrames_error (readFrame_nil hbuf)
  | cons f fs ih =>
    have hf := hfs f List.mem_cons_self
    rw [List.flatMap_cons] at hpart
    by_cases hlt : part.length < f.encode.length
    · -- the cut is in front of the first frame or inside it
      have hin : part <+: f.encode := List.prefix_of_prefix_length_le hpart (List.prefix_append _ _) (Nat.le_of_lt hlt)
      refine ⟨0, Nat.zero_le _, List.nil_prefix, fun _ => ?_, ?_⟩
      · grind
      · by_cases hnil : part = []
        · subst hnil
          exact readFrames_error (readFrame_nil hbuf)
        · rw [readFrames_error (readFrame_torn hbuf hf hin hlt hnil)]
          simp only [List.take_zero, List.flatMap_nil, hnil, if_false]
    · obtain ⟨part, rfl⟩ : f.encode <+: part :=
        List.prefix_of_prefix_length_le (List.prefix_append _ _) hpart (Nat.not_lt.mp hlt)
      obtain ⟨h, buf', hread, hframe, hlen⟩ := readFrame_encode hbuf hf part .eof
      obtain ⟨k, hk, hpre, hnext, hrest⟩ := ih (fun g hg => hfs g (List.mem_cons_of_mem _ hg)) (hlen.symm ▸ hbuf)
        ((List.prefix_append_right_inj _).mp hpart)
      refine ⟨k + 1, Nat.succ_le_succ hk, ?_, fun h => ?_, ?_⟩
      · rw [List.take_succ_cons, List.flatMap_cons]
        exact (List.prefix_append_right_inj _).mpr hpre
      · grind
      · rw [readFrames_ok hread, hrest, hframe, List.take_succ_cons, List.flatMap_cons]
        simp only [List.append_cancel_left_eq]

end

/-- Frames written one after another are read back one after another, and then the stream
ends; a stream cut short gives the frames that are complete, and then its end or a truncated
frame; and a header that announces more than a frame holds is refused with nothing behind it
read. -/
theorem frames_roundtrip (buf : List UInt8) (hbuf : headerLen + maxPayload ≤ buf.length) :
    (∀ fs, Sendable fs → ∃ stream, fs.foldlM writeFrame [] = .ok stream ∧
      readFrames ⟨stream, .eof⟩ buf = (fs, .io .eof) ∧
      ∀ part, part <+: stream → part ≠ stream → ∃ k ≤ fs.length, ∃ done next,
        (fs.take k).foldlM writeFrame [] = .ok done ∧ (fs.take (k + 1)).foldlM writeFrame [] = .ok next ∧
        done <+: part ∧ part.length < next.length ∧
        readFrames ⟨part, .eof⟩ buf = (fs.take k, if part = done then .io .eof else .truncated)) ∧
    ∀ c : Conn, headerLen ≤ c.bytes.length → maxPayload < beNat ((c.bytes.drop 33).take 2) →
      (readFrame c buf).1 = .error (.oversize (beNat ((c.bytes.drop 33).take 2))) ∧
        (readFrame c buf).2.2 = { c with bytes := c.bytes.drop headerLen } := by
  refine ⟨fun fs hfs => ?_, fun c hlen hbig => ?_⟩
  · refine ⟨fs.flatMap Frame.encode, writeFrames_ok hfs [], ?_, fun part hpart hne => ?_⟩
    · obtain ⟨k, hk, hpre, hnext, hread⟩ := readFrames_cut hfs hbuf List.prefix_rfl
      have hall : fs.length ≤ k := by
        by_contra hlt
        have hsub := ((fs.take_prefix (k + 1)).flatMap Frame.encode).length_le
        have := hnext (Nat.not_le.mp hlt)
        omega
      rw [hread, List.take_of_length_le hall, if_pos rfl]
    · obtain ⟨k, hk, hpre, hnext, hread⟩ := readFrames_cut hfs hbuf hpart
      have hsome : k < fs.length := by
        by_contra hge
        rw [List.take_of_length_le (Nat.not_lt.mp hge)] at hpre
        exact hne (hpart.eq_of_length_le hpre.length_le)
      have hsend : ∀ n, Sendable (fs.take n) := fun n f hf => hfs f (List.mem_of_mem_take hf)
      exact ⟨k, hk, _, _, writeFrames_ok (hsend k) [], writeFrames_ok (hsend (k + 1)) [], hpre, hnext hsome, hread⟩
  · obtain ⟨buf', hread⟩ := readFrame_oversize hbuf hlen hbig
    rw [hread]
    exact ⟨rfl, rfl⟩

def pingAndPacket : List Frame := [⟨typePing, Arr.zero 32, []⟩, ⟨typeSend, Arr.ofNat 32 7, [4, 0, 0, 0]⟩]

theorem frames_roundtrip_ping :
    headerLen + maxPayload ≤ (List.replicate 1535 (0 : UInt8)).length ∧ Sendable pingAndPacket ∧
      (∃ stream, pingAndPacket.foldlM writeFrame [] = .ok stream ∧
        readFrames ⟨stream, .eof⟩ (List.replicate 1535 0) = (pingAndPacket, .io .eof)) ∧
      (readFrame ⟨List.replicate 36 255, .eof⟩ (List.replicate 1535 0)).2.2 = ⟨[255], .eof⟩ := by
  have hbuf : headerLen + maxPayload ≤ (List.replicate 1535 (0 : UInt8)).length := by
    rw [List.length_replicate]
    decide
  have hsend : Sendable pingAndPacket := by
    unfold Sendable pingAndPacket
    decide
  obtain ⟨hread, hbig⟩ := frames_roundtrip _ hbuf
  obtain ⟨stream, hw, hr, -⟩ := hread pingAndPacket hsend
  exact ⟨hbuf, hsend, ⟨stream, hw, hr⟩, (hbig ⟨List.replicate 36 255, .eof⟩ (by decide) (by decide)).2⟩

end Thawr.Relay
