import GaoFS.ConcurrentWrites
import GaoFS.PlacedChunks
import GaoFS.FileTree
import GaoFS.Tree

namespace GaoFS.StoredFiles

open Arithmetic Chunks Replies ForwardData ChunkStorage DataOps MetadataRecord MetadataDB ForwardRemove
open StoredWrites WritesInFlight FileContents ConcurrentWrites PlacedChunks
open MetadataKey (Key Store Recorded Good getMetadata_recorded)
open Listing (Inv keyOk_of_good keyOk_putStore)
open GaoFS.Tree (keyPath path_eq_root_iff)
open Library.NumberText Library.ByteFile Library.Runs

section Keys

/-- A handler that changes nothing puts back what it has read. -/
theorem putStore_self {d : SimpleHashDistributor} {cl : Cluster} (h : Inv d cl) (k : UInt64) (path : Path) :
    cl.putStore k path ((cl k).store path) = cl := by
  have hmdb : ((cl k).putStore path ((cl k).store path)).mdb = (cl k).mdb := by
    apply Mdb.ext_key
    intro b
    rw [Listing.key_putStore]
    split
    · rename_i hb
      subst hb
      have hkey := h k (firstChunkKey path)
      generalize hv : (cl k).mdb.key (firstChunkKey path) = v at hkey
      change (⟨((cl k).mdb.key (firstChunkKey path)).base, []⟩ : Key) = v
      rw [hv]
      cases hkey with
      | absent => rfl
      | record p hb hhost hrec hsize => exact absurd hb.symm (firstChunkKey_ne_absolute p.absolute)
      | firstChunk hb raw => rfl
    · split
      · rename_i hb
        rw [hb]
        rfl
      · rfl
  have hself : (cl k).putStore path ((cl k).store path) =
      ⟨(cl k).rootPath, ((cl k).putStore path ((cl k).store path)).mdb, (cl k).fs⟩ := rfl
  rw [Cluster.putStore, hself, hmdb]
  exact Function.update_eq_self k cl

end Keys

section Stored

variable (d : SimpleHashDistributor) (cl : Cluster) (f : FilePath)

/-- What is stored under a path: the contents of a regular file, all of them and where they belong,
or no chunk at all. -/
def Stored : Option Bytes → Prop
  | some content => Contents d cl f content ∧ Full d cl f content ∧ Placed d f.path content.length cl
  | none => ∀ k ∈ allHosts d, ∀ c, ¬ Holds (cl k) f.path c

variable {d cl f} {cl' : Cluster} {content : Bytes} {x : Option Bytes}

theorem target_mem_allHosts (d : SimpleHashDistributor) (path : Path) (c : UInt64) :
    target d path c ∈ allHosts d := by
  rw [mem_allHosts, target, UInt32.toNat_toUInt64]
  exact UInt32.lt_iff_toNat_lt.mp (locateData_lt d path c.toUInt32)

theorem chunkOf_eq_none (h : Stored d cl f none) (c : UInt64) : chunkOf d cl f c = none := by
  have hno := h _ (target_mem_allHosts d f.path c)
  rw [chunkOf]
  cases hdir : chunkDir (cl (target d f.path c)).rootPath f.path with
  | none => rfl
  | some dir =>
    rw [Option.bind_some, Local.stored]
    split
    · rename_i h0
      have hfirst : ((cl (target d f.path c)).store f.path).data.firstChunk = none :=
        by_contra fun hne => hno c (.inl ⟨h0, hne⟩)
      rw [hfirst, Option.bind_none]
    · exact by_contra fun hne => hno c (.inr ⟨dir, hdir, hne⟩)

/-- A new file, of which nothing is stored but its entry. -/
theorem Stored.created {md : Metadata} (h : Stored d cl f none)
    (hrec : Recorded ((cl (metadataHost d f.path)).store f.path).key md) (hreg : S_ISREG md.mode = true)
    (hsize : md.size = 0) : Stored d cl f (some []) := by
  refine ⟨contents_nil hrec hreg hsize ?_ (chunkOf_eq_none h), fun c j _ hlt => ?_, fun k hk c hc => ?_⟩
  · exact by_contra fun hne => h _ (target_mem_allHosts d f.path 0) 0 (.inl ⟨rfl, hne⟩)
  · exact absurd hlt (Nat.not_lt_zero _)
  · exact absurd hc (h k hk c)

/-- What a host has of a file is as it was. -/
structure Unchanged (f : FilePath) (h h' : Host) : Prop where
  rootPath : h'.rootPath = h.rootPath
  key : (h'.store f.path).key = (h.store f.path).key
  firstChunk : (h'.store f.path).data.firstChunk = (h.store f.path).data.firstChunk
  dir : ∀ dir, chunkDir h.rootPath f.path = some dir → h'.fs dir = h.fs dir

theorem unchanged_of_frame {g : CanonicalPath} (hdir : getChunksDir g.path ≠ getChunksDir f.path) {h h' : Host}
    (hframe : Frame g.path h h') : Unchanged f h h' where
  rootPath := hframe.rootPath
  key := (hframe.others f.path (isAbsolute_path f.toCanonicalPath) fun he => hdir (by rw [he])).1
  firstChunk := (hframe.others f.path (isAbsolute_path f.toCanonicalPath) fun he => hdir (by rw [he])).2
  dir dir hown := hframe.dirs dir fun hother => hdir (chunkDir_inj hother hown)

theorem Unchanged.chunkFile {h h' : Host} (hsame : Unchanged f h h') {dir : Bytes}
    (hdir : chunkDir h.rootPath f.path = some dir) (c : UInt64) :
    ChunkStorage.chunkFile h'.fs dir c = ChunkStorage.chunkFile h.fs dir c := by
  rw [ChunkStorage.chunkFile, hsame.dir dir hdir]
  rfl

theorem Unchanged.holds {h h' : Host} (hsame : Unchanged f h h') {c : UInt64} (hc : Holds h' f.path c) :
    Holds h f.path c := by
  obtain ⟨h0, hfirst⟩ | ⟨dir, hdir, hfile⟩ := hc
  · exact .inl ⟨h0, hsame.firstChunk ▸ hfirst⟩
  · rw [hsame.rootPath] at hdir
    exact .inr ⟨dir, hdir, hsame.chunkFile hdir c ▸ hfile⟩

/-- A file is stored as it was when the daemons have changed something else. -/
theorem Stored.congr (h : Stored d cl f x) (hsame : ∀ k, Unchanged f (cl k) (cl' k)) : Stored d cl' f x := by
  have hchunk : ∀ c, chunkOf d cl' f c = chunkOf d cl f c := by
    intro c
    have hhost := hsame (target d f.path c)
    obtain ⟨dir, hdir⟩ := exists_chunkDir (cl (target d f.path c)).rootPath f
    have hfile := hhost.chunkFile hdir c
    simp only [chunkOf, hhost.rootPath, hdir, Option.bind_some, Local.stored, hhost.firstChunk]
    exact if_congr Iff.rfl rfl hfile
  have hcell : ∀ c j, cell d cl' f c j = cell d cl f c j := fun c j => by rw [cell, hchunk, cell]
  cases x with
  | none => exact fun k hk c hc => h k hk c ((hsame k).holds hc)
  | some content =>
    obtain ⟨hcontents, hfull, hplaced⟩ := h
    refine ⟨⟨?_, hcontents.length_lt, fun raw hraw => ?_, fun c b hb => ?_, fun c j v hv => ?_,
      fun c j hj hv => ?_⟩, fun c j hj hx => ?_, fun k hk c hc => ?_⟩
    · obtain ⟨md, hrec, hmd⟩ := hcontents.recorded
      exact ⟨md, (hsame _).key ▸ hrec, hmd⟩
    · exact hcontents.clean raw ((hsame _).firstChunk ▸ hraw)
    · exact hcontents.length_le c b (hchunk c ▸ hb)
    · exact hcontents.stored c j v (hcell c j ▸ hv)
    · exact hcontents.absent c j hj (hcell c j ▸ hv)
    · rw [hcell]
      exact hfull c j hj hx
    · exact hplaced k hk c ((hsame k).holds hc)

theorem Stored.frame {g : CanonicalPath} (h : Stored d cl f x) (hdir : getChunksDir g.path ≠ getChunksDir f.path)
    (hframe : ∀ k, Frame g.path (cl k) (cl' k)) : Stored d cl' f x :=
  h.congr fun k => unchanged_of_frame hdir (hframe k)

/-- The first chunk reaches to every position of the contents that lies in it. -/
theorem le_length_first (hfull : Full d cl f content) {x : Nat} (hx : x < C) (hle : x ≤ content.length) :
    x ≤ ((chunkOf d cl f 0).getD []).length := by
  cases x with
  | zero => exact Nat.zero_le _
  | succ x =>
    have hcell := hfull 0 x (by omega) (by simpa using hle)
    obtain ⟨v, hv⟩ := Option.ne_none_iff_exists'.mp hcell
    obtain ⟨b, hb, hget⟩ := Option.bind_eq_some_iff.mp hv
    rw [hb]
    exact (List.getElem?_eq_some_iff.mp hget).1

theorem recorded_size {k : Key} {md md' : Metadata} (h : Recorded k md) (h' : Recorded k md')
    (hlt : md.size.toNat < 2 ^ 63) (hlt' : md'.size.toNat < 2 ^ 63) : md'.size = md.size ∧ md'.mode = md.mode := by
  have hsame := (getMetadata_recorded h' hlt').symm.trans (getMetadata_recorded h hlt)
  have hkept : md'.kept config = md.kept config := Except.ok.inj (Option.some.inj hsame)
  have hsize : (md'.kept config).size = (md.kept config).size := by rw [hkept]
  have hmode : (md'.kept config).mode = (md.kept config).mode := by rw [hkept]
  exact ⟨hsize, hmode⟩

end Stored

section Batch

variable {ι : Type*} (t : FileTree) (calls : ι → Pwrite)

/-- Calls that write different positions of regular files and leave no hole. One call at most writes
the first chunk of a file, and no zero byte there. -/
structure Concurrent : Prop where
  regular : ∀ i, (t.fileAt (calls i).file.path).isSome
  disjoint : ∀ i j x, (calls i).file = (calls j).file → (calls i).Covers x → (calls j).Covers x → i = j
  alone : ∀ i j, (calls i).file = (calls j).file → (calls i).start < C → (calls j).start < C → i = j
  clean : ∀ i j, (calls i).start + j < C → (calls i).user[j]? ≠ some 0
  reached : ∀ i content x, t.fileAt (calls i).file.path = some content → content.length ≤ x →
    x < (calls i).stop → ∃ j, (calls j).file = (calls i).file ∧ (calls j).Covers x

variable {t calls} {d : SimpleHashDistributor} {cl : Cluster} {f : FilePath} {content : Bytes}

theorem separate_of_concurrent (h : Concurrent t calls) (hcontent : t.fileAt f.path = some content)
    (hfull : Full d cl f content)
    (hapart : ∀ i, ¬ On f calls i → getChunksDir (calls i).file.path ≠ getChunksDir f.path) :
    Separate d cl f calls where
  apart := hapart
  disjoint i j x hi hj := h.disjoint i j x (hi.trans hj.symm)
  alone i j hi hj := h.alone i j (hi.trans hj.symm)
  reached i hi hlt := by
    refine le_length_first hfull hlt ?_
    by_contra hlong
    -- another call would have to cover the position before
    have hpos := length_pos (calls i)
    obtain ⟨j, hj, hcov, -⟩ := h.reached i content ((calls i).start - 1)
      (by rw [show (calls i).file = f from hi]; exact hcontent) (by omega) (by rw [Pwrite.stop]; omega)
    obtain rfl := h.alone j i hj (by omega) hlt
    omega
  clean i j _ := h.clean i j

variable [DecidableEq ι] {s : State ι} (heap : Nat → UInt8)

/-- Calls on other files leave a file stored as it was. -/
theorem stored_run_other {x : Option Bytes} (h : Stored d cl f x)
    (hother : ∀ i, getChunksDir (calls i).file.path ≠ getChunksDir f.path) (es : List (ι × Event)) :
    Stored d (es.foldl (step d heap calls) (start cl)).cl f x := by
  have hstep : ∀ (s : State ι) (e : ι × Event), Routed d calls s ∧ Stored d s.cl f x →
      Routed d calls (step d heap calls s e) ∧ Stored d (step d heap calls s e).cl f x :=
    fun s e ⟨hrouted, hs⟩ => ⟨hrouted.step e, hs.frame (hother e.1) (step_frame hrouted heap e)⟩
  exact (invariant_foldl hstep es ⟨routed_start cl, h⟩).2

theorem key_run_other {path : Path} (hpath : isAbsolute path = true) (hother : ∀ i, path ≠ (calls i).file.path)
    (es : List (ι × Event)) (k : UInt64) :
    (((es.foldl (step d heap calls) (start cl)).cl k).store path).key = ((cl k).store path).key := by
  have hstep : ∀ (s : State ι) (e : ι × Event),
      Routed d calls s ∧ ((s.cl k).store path).key = ((cl k).store path).key →
      Routed d calls (step d heap calls s e) ∧
        (((step d heap calls s e).cl k).store path).key = ((cl k).store path).key :=
    fun s e ⟨hrouted, hs⟩ => ⟨hrouted.step e,
      ((step_frame hrouted heap e k).others path hpath (hother e.1)).1.trans hs⟩
  exact (invariant_foldl hstep es ⟨routed_start cl, rfl⟩).2

/-- The contents of a file after calls in flight that have all returned. -/
theorem stored_run (h : Concurrent t calls) (hcontent : t.fileAt f.path = some content)
    (hstored : Stored d cl f (some content))
    (hapart : ∀ i, ¬ On f calls i → getChunksDir (calls i).file.path ≠ getChunksDir f.path)
    {order : List ι} (hnodup : order.Nodup) (hmem : ∀ i, i ∈ order ↔ On f calls i) {es : List (ι × Event)}
    (hok : ∀ e ∈ es, e.2.fails = false)
    (hdone : ∀ i, (result d calls (es.foldl (step d heap calls) (start cl)) i).isSome) :
    Stored d (es.foldl (step d heap calls) (start cl)).cl f (some (after calls order content)) ∧
      (∀ i, On f calls i → result d calls (es.foldl (step d heap calls) (start cl)) i =
        some (Int64.ofNat (calls i).user.length)) ∧
      ∀ md, Recorded ((cl (metadataHost d f.path)).store f.path).key md → md.size.toNat < 2 ^ 63 →
        ∃ md', Recorded (((es.foldl (step d heap calls) (start cl)).cl (metadataHost d f.path)).store f.path).key md' ∧
          md'.mode = md.mode ∧ md'.size.toNat = (after calls order content).length := by
  obtain ⟨hcontents, hfull, hplaced⟩ := hstored
  have hsep := separate_of_concurrent h hcontent hfull hapart
  have hmerge := merges_after hsep hnodup hmem content
  have hworking := working_run_all (working_start hcontents hsep hmerge) hsep hmerge heap es fun e he _ => hok e he
  have hafter := contents_of_returned hworking hmerge hcontents.length_lt fun i _ => hdone i
  have hflight : ∀ md, Recorded ((cl (metadataHost d f.path)).store f.path).key md → md.size.toNat < 2 ^ 63 →
      ∃ md', Recorded (((es.foldl (step d heap calls) (start cl)).cl (metadataHost d f.path)).store f.path).key md' ∧
        md'.mode = md.mode ∧ md'.size.toNat = (after calls order content).length ∧
        Placed d f.path md'.size.toNat (es.foldl (step d heap calls) (start cl)).cl := by
    intro md hrec hlt
    obtain ⟨md₀, hrec₀, -, hsize₀⟩ := hcontents.recorded
    have hsize := (recorded_size hrec₀ hrec (hsize₀ ▸ hcontents.length_lt) hlt).1
    have hinflight : InFlight d f calls md (es.foldl (step d heap calls) (start cl)) :=
      invariant_foldl (I := InFlight d f calls md) (fun _ e h => inFlight_step h heap hapart e) es
        (inFlight_start hrec hlt (by rw [hsize, hsize₀]; exact hplaced))
    obtain ⟨md', hrec', hmode, hlt', -, hplaced'⟩ := hinflight.entry
    obtain ⟨md₁, hrec₁, -, hsize₁⟩ := hafter.recorded
    have hsize' := (recorded_size hrec₁ hrec' (hsize₁ ▸ hafter.length_lt) hlt').1
    exact ⟨md', hrec', hmode, by rw [hsize', hsize₁], hplaced'⟩
  refine ⟨⟨hafter, fun c j hj hx => ?_, ?_⟩, fun i hi => result_eq hworking hi (hdone i), fun md hrec hlt => ?_⟩
  · apply present_of_returned hworking (fun i _ => hdone i) c hj
    by_cases hold : c.toNat * C + j < content.length
    · exact .inl (hfull c j hj hold)
    · obtain hsame | ⟨i, hi, hlen⟩ := hmerge.attained
      · rw [hsame] at hx
        exact absurd hx hold
      · obtain ⟨i', hi', hcov⟩ := h.reached i content (c.toNat * C + j)
          (by rw [show (calls i).file = f from hi]; exact hcontent) (by omega) (hlen ▸ hx)
        exact .inr ⟨i', hi'.trans hi, hcov⟩
  · obtain ⟨md₀, hrec₀, -, hsize₀⟩ := hcontents.recorded
    obtain ⟨md', -, -, hsize, hplaced'⟩ := hflight md₀ hrec₀ (hsize₀ ▸ hcontents.length_lt)
    rw [← hsize]
    exact hplaced'
  · obtain ⟨md', hrec', hmode, hsize, -⟩ := hflight md hrec hlt
    exact ⟨md', hrec', hmode, hsize⟩

end Batch

section Keys

variable {ι : Type*} [DecidableEq ι] {d : SimpleHashDistributor} {calls : ι → Pwrite} {cl : Cluster} {s : State ι}

theorem keyOk_act {k : UInt64} {h : Host} (hkeys : ∀ b, Listing.KeyOk d k b (h.mdb.key b)) (heap : Nat → UInt8)
    (strHash : Bytes → UInt64) (user : Bytes) (sv : Serving) (a : WriteRun.Act) (b : Bytes) :
    Listing.KeyOk d k b ((sv.act heap strHash user h a).2.mdb.key b) := by
  cases a with
  | visit transferred => exact hkeys b
  | wait => exact hkeys b
  | run idx =>
    rw [Serving.act, Serving.run]
    split
    · exact hkeys b
    · exact keyOk_putStore hkeys (hkeys _) b

/-- Each host keeps what it may hold, if the entry of the call's file is good afterwards. -/
theorem inv_step (h : Inv d s.cl) (heap : Nat → UInt8) (e : ι × Event)
    (hgood : Good (((step d heap calls s e).cl (metadataHost d (calls e.1).file.path)).store (calls e.1).file.path)) :
    Inv d (step d heap calls s e).cl := by
  obtain ⟨i, e⟩ := e
  cases e with
  | updateSize =>
    change Inv d (if (s.size i).isSome then s else sendSize d calls s i).cl
    change Good (((if (s.size i).isSome then s else sendSize d calls s i).cl _).store _) at hgood
    split at hgood
    · rename_i hsome
      rw [if_pos hsome]
      exact h
    · rename_i hsome
      rw [if_neg hsome]
      refine h.putStore ?_
      have hkey := keyOk_of_good (d := d) (keyPath (calls i).file.toCanonicalPath) hgood
      simp only [sendSize, keyPath, Cluster.putStore, Function.update_self, store_putStore] at hkey
      exact hkey
  | act host a =>
    cases hsv : s.serving i host with
    | none =>
      simp only [StoredWrites.step, hsv]
      exact h
    | some sv =>
      simp only [StoredWrites.step, hsv]
      intro k b
      rw [Function.update_apply]
      split
      · rename_i hk
        subst hk
        exact keyOk_act (h k) heap _ _ sv a b
      · exact h k b

end Keys

end GaoFS.StoredFiles
