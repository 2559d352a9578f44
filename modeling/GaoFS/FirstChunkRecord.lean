import GaoFS.Chunks
import GaoFS.Library.ByteFile

namespace GaoFS.FirstChunkRecord

open Chunks Library.NumberText Library.ByteFile

def MSP : UInt8 := 124

structure FirstChunk where
  size : UInt64
  content : Bytes
  deriving DecidableEq

def FirstChunk.serialize (x : FirstChunk) : Bytes := decimal x.size.toNat ++ MSP :: x.content

def decode (binaryStr : Bytes) : Except DecodeError FirstChunk :=
  match stol binaryStr with
  | .error e => .error (.std e)
  | .ok (size, read) =>
    match binaryStr.drop read with
    | [] => .error .assertion
    | b :: content =>
      if b = MSP then .ok ⟨size.toUInt64, cString content⟩ else .error .assertion

theorem stops_MSP (rest : Bytes) : Stops (MSP :: rest) := stops_cons (by decide) rest

theorem decode_serialize (x : FirstChunk) (h : x.size.toNat < 2 ^ 63) :
    decode x.serialize = .ok { x with content := cString x.content } := by
  have hdrop : x.serialize.drop (decimal x.size.toNat).length = MSP :: x.content := by
    rw [FirstChunk.serialize, List.drop_left]
  rw [decode, FirstChunk.serialize, stol_decimal _ _ (stops_MSP x.content), if_pos h]
  rw [FirstChunk.serialize] at hdrop
  simp only [hdrop, ↓reduceIte]
  simp

def recordOf (content : Bytes) : Bytes :=
  FirstChunk.serialize ⟨UInt64.ofNat content.length, content⟩

theorem decode_recordOf (content : Bytes) (h : content.length < 2 ^ 63) :
    decode (recordOf content) = .ok ⟨UInt64.ofNat content.length, cString content⟩ := by
  refine decode_serialize ⟨UInt64.ofNat content.length, content⟩ ?_
  rw [UInt64.toNat_ofNat']
  omega

section RoundTrip

/-- The byte that a pointer to a place in a string stands at, at its end the zero behind it. -/
def charAt (s : Bytes) (i : Nat) : UInt8 := (s.drop i).headD 0

/-- The assertions of the decoder, behind a conversion that does not throw. -/
def Asserted (binaryStr : Bytes) : Prop :=
  ∃ size read, stol binaryStr = .ok (size, read) ∧ 0 < read ∧ charAt binaryStr read = MSP ∧
    charAt binaryStr (read + 1 + (cString (binaryStr.drop (read + 1))).length) = 0

theorem asserted_iff {binaryStr : Bytes} {size : Int64} {read : Nat} (h : stol binaryStr = .ok (size, read)) :
    Asserted binaryStr ↔ charAt binaryStr read = MSP := by
  constructor
  · rintro ⟨size', read', h', -, hsep, -⟩
    cases h.symm.trans h'
    exact hsep
  · refine fun hsep => ⟨size, read, h, stol_pos h, hsep, ?_⟩
    rw [charAt, ← List.drop_drop]
    exact headD_drop_cString _

/-- A string decodes exactly if the assertions hold, and only the one on the separator can fail. -/
theorem decode_isOk_iff (binaryStr : Bytes) : (∃ x, decode binaryStr = .ok x) ↔ Asserted binaryStr := by
  rw [decode]
  cases hstol : stol binaryStr with
  | error e =>
    refine iff_of_false (fun ⟨_, h⟩ => by cases h) ?_
    rintro ⟨size, read, h, -⟩
    cases hstol.symm.trans h
  | ok out =>
    obtain ⟨size, read⟩ := out
    rw [asserted_iff hstol, charAt]
    dsimp only
    cases binaryStr.drop read with
    | nil => exact iff_of_false (fun ⟨_, h⟩ => by cases h) (by decide)
    | cons b content =>
      dsimp only
      split_ifs with hsep
      · exact iff_of_true ⟨_, rfl⟩ hsep
      · exact iff_of_false (fun ⟨_, h⟩ => by cases h) hsep

/-- A record of data comes back exactly if the data has no zero byte, and the assertions see to
nothing of it. -/
theorem firstChunk_roundTrip_iff (content : Bytes) (hfits : content.length ≤ C) :
    let x : FirstChunk := ⟨UInt64.ofNat content.length, content⟩
    x.size.toNat = content.length ∧ Asserted x.serialize ∧ (decode x.serialize = .ok x ↔ 0 ∉ content) := by
  intro x
  have hlt : content.length < 2 ^ 63 := hfits.trans_lt (by decide)
  have hdecode : decode x.serialize = .ok { x with content := cString content } :=
    decode_recordOf content hlt
  refine ⟨?_, (decode_isOk_iff _).mp ⟨_, hdecode⟩, ?_⟩
  · change (UInt64.ofNat content.length).toNat = content.length
    rw [UInt64.toNat_ofNat']
    omega
  · have hclean : cString content = content ↔ 0 ∉ content := by
      rw [cString_eq_self_iff]
      simp only [notNul, bne_iff_ne]
      exact ⟨fun h hmem => h 0 hmem rfl, fun h b hb hzero => h (hzero ▸ hb)⟩
    rw [hdecode, ← hclean]
    constructor
    · exact fun h => congrArg FirstChunk.content (Except.ok.inj h)
    · intro h
      rw [h]

theorem firstChunk_roundTrip_text :
    decode (FirstChunk.serialize ⟨4, text "|a b"⟩) = .ok ⟨4, text "|a b"⟩ :=
  (firstChunk_roundTrip_iff (text "|a b") (by decide)).2.2.mpr (by decide)

/-- Two of three bytes are lost, and the size is still three. -/
theorem zero_byte_cut :
    decode (FirstChunk.serialize ⟨3, [7, 0, 9]⟩) = .ok ⟨3, [7]⟩ ∧
      decode (FirstChunk.serialize ⟨3, [7, 0, 9]⟩) ≠ .ok ⟨3, [7, 0, 9]⟩ := by
  have hdecode : decode (FirstChunk.serialize ⟨3, [7, 0, 9]⟩) = .ok ⟨3, [7]⟩ :=
    decode_serialize ⟨3, [7, 0, 9]⟩ (by decide)
  refine ⟨hdecode, ?_⟩
  rw [hdecode]
  decide

end RoundTrip

/-- The content as it stands in a record, before the decoder cuts it. -/
def rawContent (raw : Bytes) : Bytes := (raw.dropWhile isDigit).drop 1

theorem rawContent_recordOf (content : Bytes) : rawContent (recordOf content) = content := by
  have hdigits := takeWhile_digits (UInt64.ofNat content.length).toNat _ (stops_MSP content)
  have hsplit := List.takeWhile_append_dropWhile (p := isDigit) (l := recordOf content)
  simp only [recordOf, FirstChunk.serialize] at hdigits hsplit ⊢
  rw [hdigits, List.append_cancel_left_eq] at hsplit
  simp only [rawContent, hsplit, List.drop_one, List.tail_cons]

theorem recordOf_injective : Function.Injective recordOf := by
  intro c e h
  rw [← rawContent_recordOf c, h, rawContent_recordOf]

/-- Content of a record with `size` bytes written at `off`, over the content
that was read before. A new record starts from no content. -/
def writeContent (content buf : Bytes) (off : Nat) : Bytes :=
  copyAt off buf (if off + buf.length > content.length then resize 0 (off + buf.length) content
    else content)

/-- `std::copy` or `std::copy_n` out of the content, by the three cases of the source. -/
def readContent (content : Bytes) (size off : Nat) : Bytes :=
  if size + off ≥ content.length then
    if off ≥ content.length then [] else content.drop off
  else (content.drop off).take size

theorem readContent_eq (content : Bytes) (size off : Nat) :
    readContent content size off = pread off size content := by
  unfold readContent pread
  split_ifs with h1 h2
  · rw [List.drop_of_length_le h2, List.take_nil]
  · rw [List.take_of_length_le]
    simp only [List.length_drop]
    omega
  · rfl

theorem writeContent_of_ne_nil (content buf : Bytes) (off : Nat) (h : buf ≠ []) :
    writeContent content buf off = pwrite 0 off buf content := by
  rw [writeContent, pwrite, if_neg h]
  split
  · rename_i hlt
    rw [Nat.max_eq_right (by omega)]
  · rename_i hge
    rw [Nat.max_eq_left (by omega), resize_length]

theorem writeContent_nil (content : Bytes) (off : Nat) :
    writeContent content [] off = resize 0 (max off content.length) content := by
  simp only [writeContent, copyAt, List.length_nil, Nat.add_zero, List.append_nil,
    List.take_append_drop]
  split
  · rw [Nat.max_eq_left (by omega)]
  · rw [Nat.max_eq_right (by omega), resize_length]

theorem getElem?_resize_ge (z : UInt8) (n : Nat) (xs : Bytes) (h : xs.length ≤ n) (p : Nat) :
    (resize z n xs)[p]? = if p < xs.length then xs[p]? else if p < n then some z else none := by
  rw [resize_eq_append z n xs h]
  by_cases hp : p < xs.length
  · rw [if_pos hp, List.getElem?_append_left hp]
  · rw [if_neg hp, List.getElem?_append_right (by omega), List.getElem?_replicate]
    by_cases hn : p < n
    · rw [if_pos hn, if_pos (by omega)]
    · rw [if_neg hn, if_neg (by omega)]

theorem getElem?_writeContent (content buf : Bytes) (off p : Nat) :
    (writeContent content buf off)[p]? =
      if off ≤ p ∧ p < off + buf.length then buf[p - off]?
      else if p < content.length then content[p]?
      else if p < off + buf.length then some 0 else none := by
  unfold writeContent
  split
  · rename_i hlt
    rw [getElem?_copyAt _ _ _ (by rw [length_resize]), getElem?_resize_ge _ _ _ (by omega)]
  · rename_i hge
    rw [getElem?_copyAt _ _ _ (by omega)]
    split_ifs
    · rfl
    · rfl
    · omega
    · exact List.getElem?_eq_none (by omega)

theorem length_writeContent (content buf : Bytes) (off : Nat) :
    (writeContent content buf off).length = max content.length (off + buf.length) := by
  by_cases h : buf = []
  · subst h
    rw [writeContent_nil, length_resize, List.length_nil, Nat.add_zero, Nat.max_comm]
  · rw [writeContent_of_ne_nil _ _ _ h, length_pwrite _ _ _ _ h]

end GaoFS.FirstChunkRecord
