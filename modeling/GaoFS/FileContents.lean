import GaoFS.WritesInFlight
import GaoFS.ReadRun

namespace GaoFS.FileContents

open Arithmetic Chunks Replies ForwardData SrvData ChunkStorage FirstChunkRecord DataOps MetadataRecord
open MergeOperator MetadataDB ForwardRemove StoredWrites WritesInFlight
open MetadataKey (Key Store Recorded getMetadata rpcSrvUpdateMetadentrySize)
open WriteRun hiding start
open FirstChunkRace (Pc)
open Library.NumberText Library.Blocks Library.ByteFile Library.Runs

section Contents

variable (d : SimpleHashDistributor) (cl : Cluster) (f : FilePath)

/-- The contents of a file as its metadata and its stored chunks have them. What is not stored of
them is zero. -/
structure Contents (content : Bytes) : Prop where
  recorded : ∃ md, Recorded ((cl (metadataHost d f.path)).store f.path).key md ∧ S_ISREG md.mode = true ∧
    md.size.toNat = content.length
  length_lt : content.length < 2 ^ 63
  clean : FirstClean ((cl (target d f.path 0)).store f.path).data
  length_le : ∀ c b, chunkOf d cl f c = some b → b.length ≤ C
  stored : ∀ c j v, cell d cl f c j = some v → content[c.toNat * C + j]? = some v
  absent : ∀ c j, j < C → cell d cl f c j = none → content[c.toNat * C + j]?.getD 0 = 0

variable {ι : Type*} (calls : ι → Pwrite)

/-- The calls on a file write different positions, and no other file has its directory. One call
at most writes the first chunk, with no zero byte and from a place that the chunk reaches to. -/
structure Separate : Prop where
  apart : ∀ i, ¬ On f calls i → getChunksDir (calls i).file.path ≠ getChunksDir f.path
  disjoint : ∀ i j x, On f calls i → On f calls j → (calls i).Covers x → (calls j).Covers x → i = j
  alone : ∀ i j, On f calls i → On f calls j → (calls i).start < C → (calls j).start < C → i = j
  reached : ∀ i, On f calls i → (calls i).start < C → (calls i).start ≤ ((chunkOf d cl f 0).getD []).length
  clean : ∀ i j, On f calls i → (calls i).start + j < C → (calls i).user[j]? ≠ some 0

/-- The contents after the calls on a file, one after the other. -/
def after (order : List ι) (content : Bytes) : Bytes :=
  pwriteAll 0 (order.map fun i => ((calls i).start, (calls i).user)) content

/-- What the contents have in common whatever the order of the calls. -/
structure Merges (content final : Bytes) : Prop where
  length_le : content.length ≤ final.length
  stop_le : ∀ i, On f calls i → (calls i).stop ≤ final.length
  attained : final.length = content.length ∨ ∃ i, On f calls i ∧ final.length = (calls i).stop
  covered : ∀ i x, On f calls i → (calls i).Covers x → final[x]? = (calls i).user[x - (calls i).start]?
  uncovered : ∀ x, (∀ i, On f calls i → ¬ (calls i).Covers x) → final[x]?.getD 0 = content[x]?.getD 0

variable {d cl f calls}

theorem merges_after (h : Separate d cl f calls) {order : List ι} (hnodup : order.Nodup)
    (hmem : ∀ i, i ∈ order ↔ On f calls i) (content : Bytes) :
    Merges f calls content (after calls order content) := by
  have hne : ∀ w ∈ order.map (fun i => ((calls i).start, (calls i).user)), w.2 ≠ [] := by
    intro w hw
    obtain ⟨i, -, rfl⟩ := List.mem_map.mp hw
    exact (calls i).user_ne
  have hapart : (order.map fun i => ((calls i).start, (calls i).user)).Pairwise Apart := by
    rw [List.pairwise_map]
    refine hnodup.imp_of_mem fun {i j} hi hj hij => ?_
    by_contra hover
    have hi' := length_pos (calls i)
    have hj' := length_pos (calls j)
    rw [Apart, not_or] at hover
    dsimp only at hover
    refine hij (h.disjoint i j (max (calls i).start (calls j).start) ((hmem i).mp hi) ((hmem j).mp hj) ?_ ?_) <;>
      simp only [Pwrite.Covers, Pwrite.stop] <;> omega
  obtain ⟨hstop, hattained⟩ := length_pwriteAll 0 hne content
  refine ⟨le_length_pwriteAll 0 _ content, fun i hi => ?_, ?_, fun i x hi hx => ?_, fun x hx => ?_⟩
  · exact hstop _ (List.mem_map_of_mem ((hmem i).mpr hi))
  · refine hattained.imp_right ?_
    rintro ⟨w, hw, hlen⟩
    obtain ⟨i, hi, rfl⟩ := List.mem_map.mp hw
    exact ⟨i, (hmem i).mp hi, hlen⟩
  · obtain ⟨hlo, hhi⟩ := hx
    rw [Pwrite.stop] at hhi
    have hget := getElem?_pwriteAll 0 hapart (List.mem_map_of_mem ((hmem i).mpr hi))
      (j := x - (calls i).start) (by dsimp only; omega) content
    dsimp only at hget
    rw [Nat.add_sub_cancel' hlo] at hget
    exact hget
  · refine getD_pwriteAll 0 (fun w hw => ?_) content
    obtain ⟨i, hi, rfl⟩ := List.mem_map.mp hw
    exact hx i ((hmem i).mp hi)

/-- A file of which nothing is stored but its entry. -/
theorem contents_nil {d : SimpleHashDistributor} {cl : Cluster} {f : FilePath} {md : Metadata}
    (hrec : Recorded ((cl (metadataHost d f.path)).store f.path).key md) (hmode : S_ISREG md.mode = true)
    (hsize : md.size = 0) (hfirst : ((cl (target d f.path 0)).store f.path).data.firstChunk = none)
    (hchunk : ∀ c, chunkOf d cl f c = none) : Contents d cl f [] where
  recorded := ⟨md, hrec, hmode, by rw [hsize]; rfl⟩
  length_lt := Nat.two_pow_pos 63
  clean raw hraw := by
    rw [hfirst] at hraw
    cases hraw
  length_le c b hb := by
    rw [hchunk] at hb
    cases hb
  stored c j v hv := by
    rw [cell, hchunk] at hv
    cases hv
  absent _ _ _ _ := rfl

theorem contents_createdTwo : Contents twoHosts createdTwo plainFile [] := by
  refine contents_nil recorded_createdTwo (by decide) rfl (by rw [data_createdTwo]) fun c => ?_
  rw [chunkOf]
  cases hdir : chunkDir (createdTwo (target twoHosts plainFile.path c)).rootPath plainFile.path with
  | none => rfl
  | some dir =>
    rw [Option.bind_some, data_createdTwo, Local.stored]
    split <;> rfl

end Contents

section Chunks

variable (d : SimpleHashDistributor) (f : FilePath) {ι : Type*} (calls : ι → Pwrite) (final : Bytes)
  (base : Cluster)

/-- What the chunks have to do with the contents while some parts, those not in `W`, are not yet
written: each position is as in the final contents, or one of them covers it. What `base` has
stored and what is written stays stored. -/
structure Holding (cl : Cluster) (W : ι → UInt64 → Prop) : Prop where
  reached : ∀ i, On f calls i → (calls i).start < C → (calls i).start ≤ ((chunkOf d cl f 0).getD []).length
  length_le : ∀ c b, chunkOf d cl f c = some b → b.length ≤ C
  stored : ∀ c j v, cell d cl f c j = some v →
    (∃ i, On f calls i ∧ (calls i).Covers (c.toNat * C + j) ∧ ¬ W i c) ∨ final[c.toNat * C + j]? = some v
  absent : ∀ c j, j < C → cell d cl f c j = none →
    (∃ i, On f calls i ∧ (calls i).Covers (c.toNat * C + j) ∧ ¬ W i c) ∨ final[c.toNat * C + j]?.getD 0 = 0
  present : ∀ c j, j < C → (cell d base f c j ≠ none ∨
    ∃ i, On f calls i ∧ (calls i).Covers (c.toNat * C + j) ∧ W i c) → cell d cl f c j ≠ none

variable {d f calls final base} {cl cl' : Cluster} {W W' : ι → UInt64 → Prop}

theorem Holding.congr (h : Holding d f calls final base cl W) (hchunk : ∀ c, chunkOf d cl' f c = chunkOf d cl f c)
    (hW : ∀ i c, On f calls i → (W' i c ↔ W i c)) : Holding d f calls final base cl' W' := by
  have hpending : ∀ c x, (∃ i, On f calls i ∧ (calls i).Covers x ∧ ¬ W i c) →
      ∃ i, On f calls i ∧ (calls i).Covers x ∧ ¬ W' i c := by
    rintro c x ⟨i, hi, hx, hnot⟩
    exact ⟨i, hi, hx, fun hw => hnot ((hW i c hi).mp hw)⟩
  refine ⟨fun i hi hlt => ?_, fun c b hb => ?_, fun c j v hv => ?_, fun c j hj hv => ?_, fun c j hj hor => ?_⟩
  · rw [hchunk]
    exact h.reached i hi hlt
  · exact h.length_le c b (hchunk c ▸ hb)
  · rw [cell, hchunk] at hv
    exact (h.stored c j v hv).imp_left (hpending c _)
  · rw [cell, hchunk] at hv
    exact (h.absent c j hj hv).imp_left (hpending c _)
  · rw [cell, hchunk]
    exact h.present c j hj (hor.imp_right fun ⟨i, hi, hx, hw⟩ => ⟨i, hi, hx, (hW i c hi).mp hw⟩)

theorem cell_lt (h : Holding d f calls final base cl W) {c : UInt64} {j : Nat} {v : UInt8}
    (hv : cell d cl f c j = some v) : j < C := by
  obtain ⟨b, hb, hj⟩ := Option.bind_eq_some_iff.mp hv
  exact (List.getElem?_eq_some_iff.mp hj).1.trans_le (h.length_le c b hb)

/-- A call writes its part of a chunk. -/
theorem Holding.write {content : Bytes} (h : Holding d f calls final base cl W) (hmerge : Merges f calls content final)
    {i : ι} (hi : On f calls i) {c : UInt64} (hc : c.toNat ∈ blocks C (calls i).start (calls i).user.length)
    (hchunk : ∀ e, chunkOf d cl' f e = if e = c then
      some (pwrite 0 (cut C (calls i).start (calls i).user.length c.toNat - c.toNat * C)
        (part (calls i).start (calls i).user.length (calls i).user c.toNat) ((chunkOf d cl f c).getD []))
      else chunkOf d cl f e)
    (hW : ∀ j e, On f calls j → (W' j e ↔ W j e ∨ j = i ∧ e = c)) : Holding d f calls final base cl' W' := by
  have hn := length_pos (calls i)
  have hpart := fun j (hj : j < C) => getElem?_pwrite_part (o := (calls i).start) rfl hn hc hj
    ((chunkOf d cl f c).getD [])
  have hcell : ∀ e j, j < C → cell d cl' f e j = if e = c then
      if (calls i).Covers (c.toNat * C + j) then (calls i).user[c.toNat * C + j - (calls i).start]?
      else if ((chunkOf d cl f c).getD []).length ≤ j ∧
        j < cut C (calls i).start (calls i).user.length c.toNat - c.toNat * C then some 0
      else cell d cl f c j
    else cell d cl f e j := by
    intro e j hj
    rw [cell, hchunk]
    split
    · rw [Option.bind_some, hpart j hj]
      refine if_congr Iff.rfl rfl (if_congr Iff.rfl rfl ?_)
      rw [cell]
      cases chunkOf d cl f c with
      | none => rfl
      | some b => rfl
    · rfl
  have hlen : (pwrite 0 (cut C (calls i).start (calls i).user.length c.toNat - c.toNat * C)
      (part (calls i).start (calls i).user.length (calls i).user c.toNat) ((chunkOf d cl f c).getD [])).length =
      max ((chunkOf d cl f c).getD []).length (cut C (calls i).start (calls i).user.length c.toNat -
        c.toNat * C + len C (calls i).start (calls i).user.length c.toNat) := by
    rw [length_pwrite _ _ _ _ (part_ne_nil rfl hn hc), length_part rfl]
  have hold : ((chunkOf d cl f c).getD []).length ≤ C := by
    cases hb : chunkOf d cl f c with
    | none => exact Nat.zero_le _
    | some b => exact h.length_le c b hb
  -- a part that is still to be written of a position that is not covered now
  have hpending : ∀ e j, (e = c → ¬ (calls i).Covers (c.toNat * C + j)) →
      (∃ i, On f calls i ∧ (calls i).Covers (e.toNat * C + j) ∧ ¬ W i e) →
      ∃ i, On f calls i ∧ (calls i).Covers (e.toNat * C + j) ∧ ¬ W' i e := by
    rintro e j hnot ⟨k, hk, hx, hw⟩
    refine ⟨k, hk, hx, fun hw' => ?_⟩
    obtain hold | ⟨rfl, rfl⟩ := (hW k e hk).mp hw'
    · exact hw hold
    · exact hnot rfl hx
  refine ⟨fun k hk hlt => ?_, fun e b hb => ?_, fun e j v hv => ?_, fun e j hj hv => ?_, fun e j hj hor => ?_⟩
  · refine (h.reached k hk hlt).trans ?_
    rw [hchunk]
    split
    · rename_i h0
      rw [← h0] at hlen ⊢
      rw [Option.getD_some, hlen]
      exact Nat.le_max_left _ _
    · exact le_rfl
  · rw [hchunk] at hb
    split at hb
    · obtain rfl := Option.some.inj hb
      rw [hlen]
      exact max_le hold (cut_sub_add_len_le C_pos hc)
    · exact h.length_le e b hb
  · have hj : j < C := by
      by_cases he : e = c
      · rw [cell, hchunk, if_pos he, Option.bind_some] at hv
        have hlt := (List.getElem?_eq_some_iff.mp hv).1
        have hfits := cut_sub_add_len_le C_pos hc
        omega
      · rw [cell, hchunk, if_neg he] at hv
        exact cell_lt h hv
    rw [hcell e j hj] at hv
    split at hv
    · rename_i he
      subst he
      split at hv
      · rename_i hcov
        exact .inr ((hmerge.covered i _ hi hcov).trans hv)
      · rename_i hcov
        split at hv
        · rename_i hgap
          obtain rfl := Option.some.inj hv
          have hnone : cell d cl f e j = none := by
            rw [cell]
            cases hb : chunkOf d cl f e with
            | none => rfl
            | some b =>
              rw [hb, Option.getD_some] at hgap
              exact List.getElem?_eq_none hgap.1
          refine (h.absent e j hj hnone).imp (hpending e j fun _ => hcov) fun hzero => ?_
          have hlt : e.toNat * C + j < final.length := by
            have hstop := hmerge.stop_le i hi
            simp only [cut] at hgap
            rw [Pwrite.stop] at hstop
            omega
          rw [List.getElem?_eq_getElem hlt, Option.getD_some] at hzero
          rw [List.getElem?_eq_getElem hlt, hzero]
        · exact (h.stored e j v hv).imp_left (hpending e j fun _ => hcov)
    · rename_i he
      exact (h.stored e j v hv).imp_left (hpending e j fun heq => absurd heq he)
  · rw [hcell e j hj] at hv
    split at hv
    · rename_i he
      subst he
      split at hv
      · rename_i hcov
        obtain ⟨hlo, hhi⟩ := hcov
        rw [Pwrite.stop] at hhi
        rw [List.getElem?_eq_getElem (by omega)] at hv
        cases hv
      · rename_i hcov
        split at hv
        · cases hv
        · exact (h.absent e j hj hv).imp_left (hpending e j fun _ => hcov)
    · rename_i he
      exact (h.absent e j hj hv).imp_left (hpending e j fun heq => absurd heq he)
  · have hbefore : (e = c → ¬ (calls i).Covers (c.toNat * C + j)) → cell d cl f e j ≠ none := by
      intro hnot
      refine h.present e j hj (hor.imp_right ?_)
      rintro ⟨k, hk, hx, hw⟩
      refine ⟨k, hk, hx, ((hW k e hk).mp hw).resolve_right ?_⟩
      rintro ⟨rfl, rfl⟩
      exact hnot rfl hx
    rw [hcell e j hj]
    split
    · rename_i he
      subst he
      split
      · rename_i hcov
        obtain ⟨hlo, hhi⟩ := hcov
        rw [Pwrite.stop] at hhi
        rw [List.getElem?_eq_getElem (by omega)]
        exact Option.some_ne_none _
      · rename_i hcov
        split
        · exact Option.some_ne_none _
        · exact hbefore fun _ => hcov
    · rename_i he
      exact hbefore fun heq => absurd heq he

end Chunks

section Reads

open ReadRun (FileState Pread Push Reaches Requests fileByte gaofsPreadResult pushes rpcSrvRead sees view)

variable {d : SimpleHashDistributor} {cl : Cluster} {f : FilePath} {content : Bytes}

variable (d cl f content) in
/-- Every position of the contents is stored. -/
def Full : Prop := ∀ c j, j < C → c.toNat * C + j < content.length → cell d cl f c j ≠ none

theorem last_stored {b : Bytes} (h : Contents d cl f content) {c : UInt64} (hb : chunkOf d cl f c = some b)
    (hne : b ≠ []) : c.toNat * C + b.length ≤ content.length := by
  have hpos := List.length_pos_of_ne_nil hne
  have hlast : cell d cl f c (b.length - 1) = some b[b.length - 1] := by
    rw [cell, hb, Option.bind_some, List.getElem?_eq_getElem]
  have hlt := (List.getElem?_eq_some_iff.mp (h.stored c _ _ hlast)).1
  omega

/-- A position as its chunk and its place there. -/
theorem div_add_mod (x : Nat) (hx : x < 2 ^ 63) : (UInt64.ofNat (x / C)).toNat * C + x % C = x := by
  have hle := Nat.div_le_self x C
  rw [UInt64.toNat_ofNat', Nat.mod_eq_of_lt (by omega), Nat.mul_comm]
  exact Nat.div_add_mod x C

theorem firstChunk_of_clean (h : FirstClean ((cl (target d f.path 0)).store f.path).data) :
    ((cl (target d f.path 0)).store f.path).data.firstChunk = (chunkOf d cl f 0).map recordOf := by
  obtain ⟨dir, hdir⟩ := exists_chunkDir (cl (target d f.path 0)).rootPath f
  rw [chunkOf, hdir, Option.bind_some]
  obtain ⟨hnone, hstored⟩ | ⟨content, hraw, -, -, hstored⟩ := h.stored dir
  · rw [hstored]
    exact hnone
  · rw [hstored]
    exact hraw

theorem chunkOf_of_ne {c : UInt64} (hc : c ≠ 0) : chunkOf d cl f c =
    (chunkDir (cl (target d f.path c)).rootPath f.path).bind fun dir =>
      chunkFile ((cl (target d f.path c)).store f.path).data.fs dir c := by
  rw [chunkOf]
  simp only [Local.stored, if_neg hc]

/-- The state of a file with contents. -/
def fileState (h : Contents d cl f content) : FileState d f where
  daemon k := ⟨(cl k).rootPath, ((cl k).store f.path).data⟩
  chunk := chunkOf d cl f
  length_le := h.length_le
  first := firstChunk_of_clean h.clean
  later _ hc := (chunkOf_of_ne hc).symm
  size := content.length
  le_size _ _ hb hne := last_stored h hb hne

theorem reaches_of_full (h : Contents d cl f content) (hfull : Full d cl f content) {x : Nat}
    (hx : x < content.length) : Reaches (chunkOf d cl f) x ∧ some (fileByte (chunkOf d cl f) x) = content[x]? := by
  have hlt := h.length_lt
  have hsplit := div_add_mod x (by omega)
  have hcell := hfull (UInt64.ofNat (x / C)) (x % C) (Nat.mod_lt _ C_pos) (by omega)
  obtain ⟨v, hv⟩ := Option.ne_none_iff_exists'.mp hcell
  have hcontent := h.stored _ _ v hv
  obtain ⟨b, hb, hget⟩ := Option.bind_eq_some_iff.mp hv
  refine ⟨⟨b, hb, (List.getElem?_eq_some_iff.mp hget).1, fun h0 p _ hzero => ?_⟩, ?_⟩
  · -- the first chunk has no zero byte
    rw [h0] at hb
    obtain ⟨dir, hdir⟩ := exists_chunkDir (cl (target d f.path 0)).rootPath f
    rw [chunkOf, show UInt64.ofNat 0 = 0 from rfl, hdir, Option.bind_some] at hb
    obtain ⟨-, hnone⟩ | ⟨content', -, -, hclean, hstored⟩ := h.clean.stored dir
    · rw [hnone] at hb
      cases hb
    · obtain rfl := Option.some.inj (hstored.symm.trans hb)
      exact hclean (List.mem_of_getElem? hzero)
  · rw [ReadRun.fileByte, hb, Option.bind_some, hget, Option.getD_some, ← hsplit, hcontent]

/-- A read of a file whose contents are all stored returns them. -/
theorem pread_full (h : Contents d cl f content) (hfull : Full d cl f content) (call : Pread)
    {order : UInt64 → List Nat}
    (horder : ∀ r ∈ call.requests d f.path, (order r.hostId).Perm (List.range r.chunkN.toNat))
    {arrivals : List Push}
    (harrivals : arrivals.Perm (pushes (ReadRun.serve (fileState h) order (call.requests d f.path)))) :
    gaofsPreadResult ((ReadRun.serve (fileState h) order (call.requests d f.path)).map
        fun out => out.map Prod.fst) =
      Int64.ofNat (pread call.offset.toUInt64.toNat call.buf.length content).length ∧
      ∀ (i : Nat) (v : UInt8), (pread call.offset.toUInt64.toNat call.buf.length content)[i]? = some v →
        (copyAll arrivals (call.buf.map some))[i]? = some (some v) := by
  have hreqs := call.requests_spec d f
  have hn := call.length_pos
  have hon := call.end_lt
  have hreach : ∀ x, call.offset.toUInt64.toNat ≤ x → x < call.offset.toUInt64.toNat + call.buf.length →
      x < content.length → Reaches (chunkOf d cl f) x := fun x _ _ hx => (reaches_of_full h hfull hx).1
  refine ⟨?_, fun i v hv => ?_⟩
  · rw [hreqs.result hn hon horder, (ReadRun.count_iff hon).mpr hreach, length_pread]
    rfl
  · rw [getElem?_pread] at hv
    split at hv
    · rename_i hi
      have hx := (List.getElem?_eq_some_iff.mp hv).1
      obtain ⟨hreaches, hbyte⟩ := reaches_of_full h hfull hx
      have hat := hreqs.arrives hn hon horder harrivals (call.buf.map some) (by simp)
        (Nat.le_add_right _ i) (Nat.add_lt_add_left hi _) hreaches
      rw [Nat.add_sub_cancel_left] at hat
      rw [hv] at hbyte
      rw [hat]
      exact congrArg some hbyte
    · cases hv

end Reads

end GaoFS.FileContents
