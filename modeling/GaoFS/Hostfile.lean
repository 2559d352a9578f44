import GaoFS.Chunks
import GaoFS.Library.OrderedMap
import Mathlib.Data.List.Sort
import Mathlib.Data.Prod.Lex

namespace GaoFS.Hostfile

open Chunks Library.NumberText
open scoped Library.OrderedMap

def newline : UInt8 := 10
def hash : UInt8 := 35

section Lines

/-- The lines of a stream, behind what is read of the current one. A stream that ends behind a
newline has no line more. -/
def getlines (line : Bytes) : Bytes → List Bytes
  | [] => if line = [] then [] else [line]
  | b :: rest => if b = newline then line :: getlines [] rest else getlines (line ++ [b]) rest

/-- The expression `^(\S+)\s+(\S+)$`. -/
def matchLine (line : Bytes) : Option (Bytes × Bytes) :=
  let host := line.takeWhile (!isSpace ·)
  let rest := line.dropWhile (!isSpace ·)
  let gap := rest.takeWhile isSpace
  let uri := rest.dropWhile isSpace
  if host ≠ [] ∧ gap ≠ [] ∧ uri ≠ [] ∧ uri.all (!isSpace ·) then some (host, uri) else none

inductive Protocol where
  | ofiSockets
  | ofiPsm2
  | ofiVerbs
  | naSm
  deriving DecidableEq

def Protocol.name : Protocol → Bytes
  | .ofiSockets => text "ofi+sockets"
  | .ofiPsm2 => text "ofi+psm2"
  | .ofiVerbs => text "ofi+verbs"
  | .naSm => text "na+sm"

def Protocol.In (protocol : Protocol) (uri : Bytes) : Prop := protocol.name <:+: uri

instance decidableIn (protocol : Protocol) (uri : Bytes) : Decidable (protocol.In uri) :=
  inferInstanceAs (Decidable (_ <:+: _))

/-- The protocol and whether shared memory is used besides. Exceptions are `none` here and below. -/
def extractProtocol (uri : Bytes) : Option (Protocol × Bool) :=
  if ¬ text "://" <:+: uri then none
  else
    let protocol :=
      if Protocol.ofiSockets.In uri then some .ofiSockets
      else if Protocol.ofiPsm2.In uri then some .ofiPsm2
      else if Protocol.ofiVerbs.In uri then some .ofiVerbs
      else none
    if Protocol.naSm.In uri then some (protocol.elim (.naSm, false) (·, true))
    else protocol.map (·, false)

/-- Pairs of strings, by the first and then by the second. -/
def pairLe (a b : Bytes × Bytes) : Bool := toLex a ≤ toLex b

/-- Without the last `#` and what is behind it. -/
def stripSuffix (host : Bytes) : Bytes :=
  if host.contains hash then ((host.reverse.dropWhile (· != hash)).drop 1).reverse else host

structure Loaded where
  hosts : List (Bytes × Bytes)
  rpcProtocol : Protocol
  autoSm : Bool

def loadHostfile (file : Bytes) : Option Loaded :=
  ((getlines [] file).mapM matchLine).bind fun hosts =>
    hosts.head?.bind fun first =>
      (extractProtocol first.2).map fun protocol =>
        ⟨(hosts.mergeSort pairLe).map fun h => (stripSuffix h.1, h.2), protocol.1, protocol.2⟩

end Lines

section Connect

variable {ε : Type*}

/-- Lookups by URI and attempt, of which any may fail. Those that do not find the endpoint of the
URI. -/
structure Network (endpoint : Bytes → ε) where
  lookup : Bytes → Nat → Option ε
  sound : ∀ uri attempt e, lookup uri attempt = some e → e = endpoint uri

/-- A permutation of the host ids that random numbers choose. -/
structure Shuffle where
  apply : List Nat → List Nat
  perm : ∀ ids, (apply ids).Perm ids

structure Context (ε : Type*) where
  hosts : List (Option ε)
  localHostId : Option Nat

variable {endpoint : Bytes → ε} (net : Network endpoint)

def maxRetries : Nat := 3

def lookupEndpoint (uri : Bytes) : Option ε := (List.range maxRetries).findSome? (net.lookup uri)

variable (hosts : List (Bytes × Bytes)) (localHostname : Bytes)

/-- One turn of the loop over the ids. -/
def connectHost (c : Context ε) (id : Nat) : Option (Context ε) :=
  hosts[id]?.bind fun host =>
    (lookupEndpoint net host.2).map fun e =>
      ⟨c.hosts.set id (some e),
        if c.localHostId.isNone ∧ host.1 = localHostname then some id else c.localHostId⟩

/-- The endpoints start out empty. Without the local host the first one is taken for it. -/
def connectToHosts (shuffle : Shuffle) : Option (Context ε) :=
  ((shuffle.apply (List.range hosts.length)).foldlM (connectHost net hosts localHostname)
    ⟨List.replicate hosts.length none, none⟩).map fun c => { c with localHostId := some (c.localHostId.getD 0) }

def initHosts (shuffle : Shuffle) (file : Bytes) : Option (Context ε) :=
  (loadHostfile file).bind fun loaded => connectToHosts net loaded.hosts localHostname shuffle

/-- The distributor of the client. The number of hosts becomes an `unsigned int`. -/
def Context.distributor (c : Context ε) (strHash : Bytes → UInt64) : Option SimpleHashDistributor :=
  if h : UInt32.ofNat c.hosts.length ≠ 0 then some ⟨strHash, UInt32.ofNat c.hosts.length, h⟩ else none

end Connect

section Daemons

/-- A line of the file that the clients accept. -/
structure Line where
  host : Bytes
  gap : Bytes
  uri : Bytes
  host_ne : host ≠ []
  host_visible : ∀ b ∈ host, isSpace b = false
  gap_ne : gap ≠ []
  gap_space : ∀ b ∈ gap, isSpace b = true
  gap_newline : newline ∉ gap
  uri_ne : uri ≠ []
  uri_visible : ∀ b ∈ uri, isSpace b = false
  protocol : (extractProtocol uri).isSome

def Line.bytes (l : Line) : Bytes := l.host ++ l.gap ++ l.uri

/-- A daemon appends its line. -/
def populateHostsFile (file : Bytes) (l : Line) : Bytes := file ++ (l.bytes ++ [newline])

def hostsFile (lines : List Line) : Bytes := lines.foldl populateHostsFile []

def Line.pair (l : Line) : Bytes × Bytes := (l.host, l.uri)

end Daemons

section Load

theorem getlines_line {xs : Bytes} (h : newline ∉ xs) (line rest : Bytes) :
    getlines line (xs ++ newline :: rest) = (line ++ xs) :: getlines [] rest := by
  induction xs generalizing line with
  | nil => rw [List.nil_append, getlines, if_pos rfl, List.append_nil]
  | cons b xs ih =>
    obtain ⟨hb, hxs⟩ := not_or.mp (mt List.mem_cons.mpr h)
    rw [List.cons_append, getlines, if_neg (Ne.symm hb), ih hxs, List.append_assoc, List.singleton_append]

theorem Line.newline_not_mem (l : Line) : newline ∉ l.bytes := by
  have hvisible : ∀ xs : Bytes, (∀ b ∈ xs, isSpace b = false) → newline ∉ xs := by
    intro xs hxs hmem
    exact absurd (hxs newline hmem) (by decide)
  rw [Line.bytes, List.mem_append, List.mem_append]
  rintro ((h | h) | h)
  · exact hvisible l.host l.host_visible h
  · exact l.gap_newline h
  · exact hvisible l.uri l.uri_visible h

theorem hostsFile_cons (l : Line) (lines : List Line) :
    hostsFile (l :: lines) = l.bytes ++ newline :: hostsFile lines := by
  have hfold : ∀ (ls : List Line) (file : Bytes),
      ls.foldl populateHostsFile file = file ++ hostsFile ls := by
    intro ls
    induction ls with
    | nil => exact fun file => (List.append_nil file).symm
    | cons l ls ih =>
      intro file
      rw [hostsFile, List.foldl_cons, List.foldl_cons, ih, ih (populateHostsFile [] l), ← List.append_assoc]
      rfl
  rw [hostsFile, List.foldl_cons, hfold]
  simp [populateHostsFile]

theorem getlines_hostsFile (lines : List Line) :
    getlines [] (hostsFile lines) = lines.map Line.bytes := by
  induction lines with
  | nil => rfl
  | cons l lines ih => rw [hostsFile_cons, getlines_line l.newline_not_mem, List.nil_append, ih, List.map_cons]

theorem matchLine_bytes (l : Line) : matchLine l.bytes = some l.pair := by
  have hvisible : ∀ xs : Bytes, (∀ b ∈ xs, isSpace b = false) → ∀ b ∈ xs, (!isSpace b) = true := by
    intro xs hxs b hb
    rw [hxs b hb]
    rfl
  obtain ⟨g, gap, hgap⟩ := List.exists_cons_of_ne_nil l.gap_ne
  obtain ⟨u, uri, huri⟩ := List.exists_cons_of_ne_nil l.uri_ne
  have hg : isSpace g = true := l.gap_space g (by rw [hgap]; exact List.mem_cons_self)
  have hu : isSpace u = false := l.uri_visible u (by rw [huri]; exact List.mem_cons_self)
  have hgapStops : (l.gap ++ l.uri).takeWhile (!isSpace ·) = [] ∧
      (l.gap ++ l.uri).dropWhile (!isSpace ·) = l.gap ++ l.uri := by
    rw [hgap]
    simp [hg]
  have huriStops : l.uri.takeWhile isSpace = [] ∧ l.uri.dropWhile isSpace = l.uri := by
    rw [huri]
    simp [hu]
  have hall : l.uri.all (!isSpace ·) = true := List.all_eq_true.mpr (hvisible _ l.uri_visible)
  rw [matchLine, Line.bytes, List.append_assoc]
  rw [List.takeWhile_append_of_pos (hvisible _ l.host_visible),
    List.dropWhile_append_of_pos (hvisible _ l.host_visible), hgapStops.1, hgapStops.2, List.append_nil, List.takeWhile_append_of_pos l.gap_space,
    List.dropWhile_append_of_pos l.gap_space, huriStops.1, huriStops.2, List.append_nil]
  exact if_pos ⟨l.host_ne, l.gap_ne, l.uri_ne, hall⟩

theorem mapM_matchLine (lines : List Line) :
    (lines.map Line.bytes).mapM matchLine = some (lines.map Line.pair) := by
  induction lines with
  | nil => rfl
  | cons l lines ih => simp [matchLine_bytes, ih]

/-- The hosts by their ids, before anything is looked up. -/
def placement (lines : List Line) : List (Bytes × Bytes) :=
  ((lines.map Line.pair).mergeSort pairLe).map fun h => (stripSuffix h.1, h.2)

theorem loadHostfile_hosts (lines : List Line) :
    (loadHostfile (hostsFile lines)).map Loaded.hosts = if lines = [] then none else some (placement lines) := by
  rw [loadHostfile, getlines_hostsFile, mapM_matchLine, Option.bind_some]
  cases lines with
  | nil => rfl
  | cons l lines =>
    obtain ⟨protocol, hprotocol⟩ := Option.isSome_iff_exists.mp l.protocol
    rw [if_neg (List.cons_ne_nil l lines), List.map_cons, List.head?_cons, Option.bind_some]
    change ((extractProtocol l.uri).map _).map _ = _
    rw [hprotocol]
    rfl

theorem placement_pairs (lines : List Line) :
    ((placement lines).map Prod.snd).Perm (lines.map Line.uri) := by
  have hpairs := (List.mergeSort_perm (lines.map Line.pair) pairLe).map Prod.snd
  rw [placement, List.map_map]
  refine hpairs.trans (List.Perm.of_eq ?_)
  rw [List.map_map]
  rfl

/-- Pairs that are equal in the order are equal, so their order in the file leaves no trace. -/
theorem placement_perm {lines lines' : List Line} (h : lines.Perm lines') : placement lines = placement lines' := by
  have htrans : ∀ a b c : Bytes × Bytes, pairLe a b = true → pairLe b c = true → pairLe a c = true := by
    intro a b c hab hbc
    exact decide_eq_true ((of_decide_eq_true hab).trans (of_decide_eq_true hbc))
  have htotal : ∀ a b : Bytes × Bytes, (pairLe a b || pairLe b a) = true := by
    intro a b
    rw [Bool.or_eq_true]
    exact (le_total (toLex a) (toLex b)).imp decide_eq_true decide_eq_true
  have hsorted : ∀ xs : List (Bytes × Bytes), (xs.mergeSort pairLe).Pairwise (pairLe · ·) :=
    List.pairwise_mergeSort htrans htotal
  have hpairs : ((lines.map Line.pair).mergeSort pairLe).Perm ((lines'.map Line.pair).mergeSort pairLe) :=
    (List.mergeSort_perm _ _).trans ((h.map Line.pair).trans (List.mergeSort_perm _ _).symm)
  rw [placement, placement, hpairs.eq_of_pairwise ?_ (hsorted _) (hsorted _)]
  intro a b _ _ hab hba
  exact toLex_inj.mp (le_antisymm (of_decide_eq_true hab) (of_decide_eq_true hba))

end Load

section Agreement

variable {ε : Type*} {endpoint : Bytes → ε} {net net' : Network endpoint} {hosts : List (Bytes × Bytes)}

/-- Each lookup succeeds at one of its attempts. -/
def Answers (net : Network endpoint) (lines : List Line) : Prop :=
  ∀ l ∈ lines, ∃ attempt < maxRetries, (net.lookup l.uri attempt).isSome

theorem lookupEndpoint_eq {uri : Bytes} (h : ∃ attempt < maxRetries, (net.lookup uri attempt).isSome) :
    lookupEndpoint net uri = some (endpoint uri) := by
  obtain ⟨attempt, hlt, hsome⟩ := h
  have hfound : (lookupEndpoint net uri).isSome :=
    List.findSome?_isSome_iff.mpr ⟨attempt, List.mem_range.mpr hlt, hsome⟩
  obtain ⟨e, he⟩ := Option.isSome_iff_exists.mp hfound
  obtain ⟨n, -, hn⟩ := List.exists_of_findSome?_eq_some he
  rw [he, net.sound uri n e hn]

/-- What the loop has looked up stands at its id. -/
theorem foldlM_connectHost (localHostname : Bytes)
    (hfound : ∀ host ∈ hosts, lookupEndpoint net host.2 = some (endpoint host.2)) {ids : List Nat}
    (hids : ∀ id ∈ ids, id < hosts.length) {c : Context ε} (hlength : c.hosts.length = hosts.length) :
    ∃ c', ids.foldlM (connectHost net hosts localHostname) c = some c' ∧
      c'.hosts.length = hosts.length ∧ ∀ i host, hosts[i]? = some host →
        c'.hosts[i]? = if i ∈ ids then some (some (endpoint host.2)) else c.hosts[i]? := by
  induction ids generalizing c with
  | nil => exact ⟨c, rfl, hlength, fun i host _ => by simp⟩
  | cons id ids ih =>
    obtain ⟨hid, hids⟩ := List.forall_mem_cons.mp hids
    have hturn : ∃ m, connectHost net hosts localHostname c id =
        some ⟨c.hosts.set id (some (endpoint hosts[id].2)), m⟩ := by
      rw [connectHost, List.getElem?_eq_getElem hid, Option.bind_some,
        hfound _ (List.getElem_mem hid), Option.map_some]
      exact ⟨_, rfl⟩
    obtain ⟨m, hm⟩ := hturn
    obtain ⟨c', hrun, hlen, hat⟩ :=
      ih hids (c := ⟨c.hosts.set id (some (endpoint hosts[id].2)), m⟩) (by rw [List.length_set, hlength])
    refine ⟨c', ?_, hlen, fun i host hhost => ?_⟩
    · rw [List.foldlM_cons, hm]
      exact hrun
    · rw [hat i host hhost]
      by_cases hmem : i ∈ ids
      · rw [if_pos hmem, if_pos (List.mem_cons_of_mem id hmem)]
      · rw [if_neg hmem]
        by_cases hi : i = id
        · subst hi
          rw [List.getElem?_eq_getElem hid] at hhost
          rw [if_pos List.mem_cons_self, List.getElem?_set_self (by omega), Option.some.inj hhost]
        · rw [if_neg (by simp [hi, hmem]), List.getElem?_set_ne (Ne.symm hi)]

theorem connectToHosts_hosts (localHostname : Bytes)
    (hfound : ∀ host ∈ hosts, lookupEndpoint net host.2 = some (endpoint host.2)) (shuffle : Shuffle) :
    (connectToHosts net hosts localHostname shuffle).map Context.hosts =
      some (hosts.map fun host => some (endpoint host.2)) := by
  have hperm := shuffle.perm (List.range hosts.length)
  have hids : ∀ id ∈ shuffle.apply (List.range hosts.length), id < hosts.length :=
    fun id hid => List.mem_range.mp (hperm.mem_iff.mp hid)
  obtain ⟨c, hrun, hlength, hat⟩ := foldlM_connectHost localHostname hfound hids
    (c := ⟨List.replicate hosts.length none, none⟩) List.length_replicate
  rw [connectToHosts, hrun, Option.map_some, Option.map_some, Option.some_inj]
  apply List.ext_getElem?
  intro i
  rw [List.getElem?_map]
  cases hhost : hosts[i]? with
  | none =>
    rw [List.getElem?_eq_none_iff] at hhost
    exact List.getElem?_eq_none (by dsimp only; omega)
  | some host =>
    have hi : i ∈ shuffle.apply (List.range hosts.length) :=
      hperm.mem_iff.mpr (List.mem_range.mpr (List.getElem?_eq_some_iff.mp hhost).1)
    exact (hat i host hhost).trans (if_pos hi)

theorem initHosts_hosts {lines : List Line} (hnet : Answers net lines) (localHostname : Bytes)
    (shuffle : Shuffle) :
    (initHosts net localHostname shuffle (hostsFile lines)).map Context.hosts =
      if lines = [] then none else some ((placement lines).map fun host => some (endpoint host.2)) := by
  have hfound : ∀ host ∈ placement lines, lookupEndpoint net host.2 = some (endpoint host.2) := by
    intro host hhost
    obtain ⟨pair, hpair, rfl⟩ := List.mem_map.mp hhost
    obtain ⟨l, hl, rfl⟩ := List.mem_map.mp (List.mem_mergeSort.mp hpair)
    exact lookupEndpoint_eq (hnet l hl)
  have hload := loadHostfile_hosts lines
  rw [initHosts]
  cases hloaded : loadHostfile (hostsFile lines) with
  | none =>
    rw [hloaded, Option.map_none] at hload
    split_ifs at hload ⊢
    rfl
  | some loaded =>
    rw [hloaded, Option.map_some] at hload
    split_ifs at hload ⊢
    obtain hhosts := Option.some.inj hload
    rw [Option.bind_some, hhosts]
    exact connectToHosts_hosts localHostname hfound shuffle

def Context.endpointAt (c : Context ε) (host : UInt32) : Option ε := c.hosts[host.toNat]?.join

variable {c c' : Context ε} {strHash : Bytes → UInt64} {d : SimpleHashDistributor}

theorem distributor_hostsSize (h : d ∈ c.distributor strHash) :
    d.strHash = strHash ∧ d.hostsSize = UInt32.ofNat c.hosts.length := by
  rw [Context.distributor] at h
  split_ifs at h
  · obtain rfl := Option.some.inj h
    exact ⟨rfl, rfl⟩
  · cases h

/-- A client has a distributor unless its number of hosts is cut off to zero. -/
theorem distributor_isSome_iff (c : Context ε) (strHash : Bytes → UInt64) :
    (c.distributor strHash).isSome ↔ c.hosts.length % 2 ^ 32 ≠ 0 := by
  have hzero : UInt32.ofNat c.hosts.length ≠ 0 ↔ c.hosts.length % 2 ^ 32 ≠ 0 := by
    rw [ne_eq, ← UInt32.toNat_inj, UInt32.toNat_ofNat']
    rfl
  rw [Context.distributor, ← hzero]
  split_ifs with hsize
  · exact iff_of_true rfl hsize
  · exact iff_of_false Bool.false_ne_true hsize

/-- All host ids are below the number of hosts, even where that is cut off. -/
theorem endpointAt_isSome (hc : ∀ e ∈ c.hosts, e.isSome) (h : d ∈ c.distributor strHash) {k : UInt32}
    (hk : k < d.hostsSize) : (c.endpointAt k).isSome := by
  have hlt : k.toNat < c.hosts.length := by
    rw [UInt32.lt_iff_toNat_lt, (distributor_hostsSize h).2, UInt32.toNat_ofNat'] at hk
    exact hk.trans_le (Nat.mod_le _ _)
  rw [Context.endpointAt, List.getElem?_eq_getElem hlt]
  exact hc _ (List.getElem_mem hlt)

/-- Whatever the order of the lines, of the lookups and of those that fail, all clients have the same
endpoints by id. Hence files and chunks have one place for all of them and for the daemons. -/
theorem placement_agrees {lines lines' : List Line} (hperm : lines.Perm lines') (hnet : Answers net lines)
    (hnet' : Answers net' lines') (localHostname localHostname' : Bytes) (shuffle shuffle' : Shuffle) :
    let out := initHosts net localHostname shuffle (hostsFile lines)
    let out' := initHosts net' localHostname' shuffle' (hostsFile lines')
    out.map Context.hosts = out'.map Context.hosts ∧ (out.isSome ↔ lines ≠ []) ∧
    (∀ c ∈ out, c.hosts = (placement lines).map (fun host => some (endpoint host.2)) ∧
      c.hosts.Perm (lines.map fun l => some (endpoint l.uri)) ∧ c.hosts.length = lines.length ∧
      ∀ strHash, (c.distributor strHash).isSome ↔ lines.length % 2 ^ 32 ≠ 0) ∧
    ∀ c ∈ out, ∀ c' ∈ out', ∀ strHash, c.distributor strHash = c'.distributor strHash ∧
      ∀ d ∈ c.distributor strHash, ∀ path,
        (∃ e, c.endpointAt (d.locateFileMetadata path) = some e ∧
          c'.endpointAt (d.locateFileMetadata path) = some e) ∧
        ∀ chunkId, locateDataSized strHash path chunkId (UInt32.ofNat c.hosts.length) =
            some (d.locateData path chunkId) ∧
          ∃ e, c.endpointAt (d.locateData path chunkId) = some e ∧
            c'.endpointAt (d.locateData path chunkId) = some e := by
  intro out out'
  have hout := initHosts_hosts hnet localHostname shuffle
  have hout' := initHosts_hosts hnet' localHostname' shuffle'
  have hempty : lines = [] ↔ lines' = [] := by
    rw [← List.length_eq_zero_iff, ← List.length_eq_zero_iff, hperm.length_eq]
  have hsame : out.map Context.hosts = out'.map Context.hosts := by
    rw [hout, hout', placement_perm hperm]
    simp only [hempty]
  have hplaced : ∀ c ∈ out, c.hosts = (placement lines).map fun host => some (endpoint host.2) := by
    intro c hc
    have hinit : initHosts net localHostname shuffle (hostsFile lines) = some c := hc
    have hfull := hout
    rw [hinit, Option.map_some] at hfull
    split_ifs at hfull
    exact Option.some.inj hfull
  refine ⟨hsame, ?_, fun c hc => ?_, fun c hc c' hc' strHash => ?_⟩
  · rw [← Option.isSome_map (f := Context.hosts), hout]
    split_ifs with hnil
    · exact iff_of_false Bool.false_ne_true (not_not_intro hnil)
    · exact iff_of_true rfl hnil
  · have hendpoints : c.hosts.Perm (lines.map fun l => some (endpoint l.uri)) := by
      have huris := (placement_pairs lines).map fun uri => some (endpoint uri)
      rw [List.map_map, List.map_map] at huris
      rw [hplaced c hc]
      exact huris
    have hlength : c.hosts.length = lines.length := by rw [hendpoints.length_eq, List.length_map]
    refine ⟨hplaced c hc, hendpoints, hlength, fun strHash => ?_⟩
    rw [distributor_isSome_iff, hlength]
  have hhosts : c.hosts = c'.hosts := by
    rw [Option.mem_def.mp hc, Option.mem_def.mp hc'] at hsame
    exact Option.some.inj hsame
  have hfilled : ∀ e ∈ c.hosts, e.isSome := by
    rw [hplaced c hc]
    exact List.forall_mem_map.mpr fun _ _ => rfl
  have hplace : ∀ d ∈ c.distributor strHash, ∀ k < d.hostsSize,
      ∃ e, c.endpointAt k = some e ∧ c'.endpointAt k = some e := by
    intro d hd k hk
    obtain ⟨e, he⟩ := Option.isSome_iff_exists.mp (endpointAt_isSome hfilled hd hk)
    refine ⟨e, he, ?_⟩
    rw [← he, Context.endpointAt, Context.endpointAt, hhosts]
  constructor
  · rw [Context.distributor, Context.distributor, hhosts]
  · intro d hd path
    refine ⟨hplace d hd _ (mod_hostsSize_lt d _), fun chunkId => ⟨?_, hplace d hd _ (locateData_lt d path chunkId)⟩⟩
    obtain ⟨hhash, hsize⟩ := distributor_hostsSize hd
    rw [← hhash, ← hsize]
    exact locateDataSized_eq d path chunkId

/-- Two daemons of one node, told apart by the suffix of their directories. -/
def firstOfNode : Line :=
  ⟨text "node#a", text " ", text "ofi+sockets://node:1", by decide, by decide +kernel,
    by decide, by decide +kernel, by decide, by decide, by decide +kernel, by decide⟩

def secondOfNode : Line :=
  ⟨text "node#b", text " ", text "ofi+sockets://node:2", by decide, by decide +kernel,
    by decide, by decide +kernel, by decide, by decide, by decide +kernel, by decide⟩

/-- Every lookup fails once. -/
def slowNetwork : Network (fun uri : Bytes => uri) where
  lookup uri attempt := if attempt = 0 then none else some uri
  sound := by
    intro uri attempt e h
    split_ifs at h
    exact (Option.some.inj h).symm

theorem placement_two_daemons :
    ∃ c c' : Context Bytes,
      initHosts slowNetwork (text "node") ⟨id, fun _ => .refl _⟩ (hostsFile [secondOfNode, firstOfNode]) = some c ∧
      initHosts slowNetwork [] ⟨List.reverse, List.reverse_perm⟩ (hostsFile [firstOfNode, secondOfNode]) = some c' ∧
      c.hosts = [some (text "ofi+sockets://node:1"), some (text "ofi+sockets://node:2")] ∧ c'.hosts = c.hosts ∧
      c.endpointAt 0 ≠ c.endpointAt 1 ∧ (c.distributor twoHosts.strHash).isSome := by
  have hanswers : ∀ lines, Answers slowNetwork lines := fun lines l hl => ⟨1, by decide, rfl⟩
  obtain ⟨hsame, hsome, hplaced, -⟩ := placement_agrees (List.Perm.swap firstOfNode secondOfNode [])
    (hanswers _) (hanswers _) (text "node") [] ⟨id, fun _ => .refl _⟩ ⟨List.reverse, List.reverse_perm⟩
  obtain ⟨c, hc⟩ := Option.isSome_iff_exists.mp (hsome.mpr (List.cons_ne_nil _ _))
  rw [hc, Option.map_some] at hsame
  obtain ⟨c', hc', hhosts'⟩ := Option.map_eq_some_iff.mp hsame.symm
  obtain ⟨hhosts, -, -, hdistributor⟩ := hplaced c hc
  have hlist : c.hosts = [some (text "ofi+sockets://node:1"), some (text "ofi+sockets://node:2")] := by
    have hsorted : [firstOfNode.pair, secondOfNode.pair].Pairwise (pairLe · ·) := by decide +kernel
    rw [hhosts, placement_perm (List.Perm.swap firstOfNode secondOfNode []), placement, List.map_cons, List.map_cons,
      List.map_nil, List.mergeSort_of_pairwise hsorted]
    decide +kernel
  refine ⟨c, c', hc, hc', hlist, hhosts', ?_, (hdistributor _).mpr (by decide)⟩
  rw [Context.endpointAt, Context.endpointAt, hlist]
  decide +kernel

end Agreement

end GaoFS.Hostfile
