import GaoFS.Library.NumberText

namespace GaoFS.Library.Wire

open NumberText

section Numbers

def leBytes : Nat → Nat → Bytes
  | 0, _ => []
  | w + 1, n => UInt8.ofNat n :: leBytes w (n / 256)

def takeLE : Nat → Bytes → Option (Nat × Bytes)
  | 0, s => some (0, s)
  | _ + 1, [] => none
  | w + 1, b :: s => (takeLE w s).map fun r => (b.toNat + 256 * r.1, r.2)

theorem takeLE_leBytes (w n : Nat) (rest : Bytes) :
    takeLE w (leBytes w n ++ rest) = some (n % 256 ^ w, rest) := by
  induction w generalizing n with
  | zero => simp [takeLE, leBytes, Nat.mod_one]
  | succ w ih =>
    have hsplit : n % 256 ^ (w + 1) = n % 256 + 256 * (n / 256 % 256 ^ w) := by
      rw [Nat.pow_succ, Nat.mul_comm _ 256, Nat.mod_mul]
    rw [leBytes, List.cons_append, takeLE, ih, Option.map_some, UInt8.toNat_ofNat', hsplit]

/-- The word of `w` bytes at a position of a buffer, and 0 beyond its end. -/
def wordAt (w : Nat) (buf : Bytes) (pos : Nat) : Nat := ((takeLE w (buf.drop pos)).map Prod.fst).getD 0

theorem wordAt_leBytes {w v pos : Nat} {buf rest : Bytes} (h : buf.drop pos = leBytes w v ++ rest)
    (hv : v < 256 ^ w) : wordAt w buf pos = v := by
  rw [wordAt, h, takeLE_leBytes, Option.map_some, Option.getD_some, Nat.mod_eq_of_lt hv]

theorem length_leBytes (w v : Nat) : (leBytes w v).length = w := by
  induction w generalizing v with
  | zero => rfl
  | succ w ih => rw [leBytes, List.length_cons, ih]

def takeUInt32 (s : Bytes) : Option (UInt32 × Bytes) :=
  (takeLE 4 s).map fun r => (UInt32.ofNat r.1, r.2)

def takeUInt64 (s : Bytes) : Option (UInt64 × Bytes) :=
  (takeLE 8 s).map fun r => (UInt64.ofNat r.1, r.2)

theorem takeUInt32_leBytes (v : UInt32) (rest : Bytes) :
    takeUInt32 (leBytes 4 v.toNat ++ rest) = some (v, rest) := by
  have hlt : v.toNat < 256 ^ 4 := v.toNat_lt
  rw [takeUInt32, takeLE_leBytes, Option.map_some, Nat.mod_eq_of_lt hlt, UInt32.ofNat_toNat]

theorem takeUInt64_leBytes (v : UInt64) (rest : Bytes) :
    takeUInt64 (leBytes 8 v.toNat ++ rest) = some (v, rest) := by
  have hlt : v.toNat < 256 ^ 8 := v.toNat_lt
  rw [takeUInt64, takeLE_leBytes, Option.map_some, Nat.mod_eq_of_lt hlt, UInt64.ofNat_toNat]

end Numbers

section Strings

/-- A string up to its zero byte, behind a flag that tells a null pointer. -/
def stringBytes : Option NulFree → Bytes
  | none => [0]
  | some t => 1 :: (t.1 ++ [0])

def takeString : Bytes → Option (Option NulFree × Bytes)
  | [] => none
  | b :: s => some (if b = 0 then (none, s) else (some (cPath s), (s.dropWhile notNul).tail))

theorem takeString_stringBytes (v : Option NulFree) (rest : Bytes) :
    takeString (stringBytes v ++ rest) = some (v, rest) := by
  cases v with
  | none => rfl
  | some t =>
    have htake : (t.1 ++ 0 :: rest).takeWhile notNul = t.1 := by
      rw [List.takeWhile_append_of_pos t.2]
      exact List.append_nil _
    have hdrop : (t.1 ++ 0 :: rest).dropWhile notNul = 0 :: rest := by
      rw [List.dropWhile_append_of_pos t.2]
      rfl
    have hpath : cPath (t.1 ++ 0 :: rest) = t := Subtype.ext htake
    rw [stringBytes, List.cons_append, takeString, if_neg (by decide), List.append_assoc,
      List.singleton_append, hpath, hdrop, List.tail_cons]

end Strings

variable {ν κ : Type*} {Val : κ → Type}

/-- How the values of each kind are written, and read back with what follows them. -/
structure Codec (κ : Type*) (Val : κ → Type) where
  encode : (k : κ) → Val k → Bytes
  decode : (k : κ) → Bytes → Option (Val k × Bytes)
  decode_encode : ∀ k v rest, decode k (encode k v ++ rest) = some (v, rest)

abbrev Fields (ν κ : Type*) := List (ν × κ)

def Record (Val : κ → Type) : Fields ν κ → Type
  | [] => Unit
  | f :: fs => Val f.2 × Record Val fs

def encodeFields (codec : Codec κ Val) : {fs : Fields ν κ} → Record Val fs → Bytes
  | [], _ => []
  | f :: _, r => codec.encode f.2 r.1 ++ encodeFields codec r.2

def decodeFields (codec : Codec κ Val) : (fs : Fields ν κ) → Bytes → Option (Record Val fs × Bytes)
  | [], s => some ((), s)
  | f :: fs, s => (codec.decode f.2 s).bind fun v =>
    (decodeFields codec fs v.2).map fun r => ((v.1, r.1), r.2)

theorem decodeFields_encodeFields (codec : Codec κ Val) {fs : Fields ν κ} (r : Record Val fs)
    (rest : Bytes) : decodeFields codec fs (encodeFields codec r ++ rest) = some (r, rest) := by
  induction fs with
  | nil => rfl
  | cons f fs ih =>
    change ((codec.decode f.2 (codec.encode f.2 r.1 ++ encodeFields codec r.2 ++ rest)).bind _) = _
    rw [List.append_assoc, codec.decode_encode, Option.bind_some, ih, Option.map_some]
    rfl

section Get

variable [DecidableEq ν]

def Record.get : {t : Fields ν κ} → Record Val t → ν → Option (Σ k, Val k)
  | [], _, _ => none
  | f :: _, r, n => if f.1 = n then some ⟨f.2, r.1⟩ else Record.get r.2 n

theorem Record.get_head {f : ν × κ} {fs : Fields ν κ} (r : Record Val (f :: fs)) :
    Record.get r f.1 = some ⟨f.2, r.1⟩ := if_pos rfl

theorem Record.get_tail {f : ν × κ} {fs : Fields ν κ} (r : Record Val (f :: fs)) {n : ν}
    (h : f.1 ≠ n) : Record.get r n = Record.get (t := fs) r.2 n := if_neg h

theorem Record.get_eq_none {fs : Fields ν κ} (r : Record Val fs) {n : ν} (h : n ∉ fs.map Prod.fst) :
    Record.get r n = none := by
  induction fs with
  | nil => rfl
  | cons f fs ih =>
    rw [List.map_cons, List.mem_cons, not_or] at h
    rw [Record.get_tail r (Ne.symm h.1), ih r.2 h.2]

theorem forall_get_cons {f : ν × κ} {hs : Fields ν κ} (hf : f.1 ∉ hs.map Prod.fst)
    {a b : Record Val (f :: hs)} (h : a.1 = b.1) :
    (∀ g ∈ f :: hs, Record.get a g.1 = Record.get b g.1) ↔
      ∀ g ∈ hs, Record.get (t := hs) a.2 g.1 = Record.get (t := hs) b.2 g.1 := by
  have hhead : Record.get a f.1 = Record.get b f.1 := by
    rw [Record.get_head, Record.get_head, h]
  refine List.forall_mem_cons.trans ((and_iff_right hhead).trans (forall₂_congr fun g hg => ?_))
  have hne : f.1 ≠ g.1 := fun h => hf (h ▸ List.mem_map_of_mem hg)
  rw [Record.get_tail a hne, Record.get_tail b hne]

end Get

section View

variable [DecidableEq κ] [∀ k, Inhabited (Val k)]

/-- The memory of a message in the layout of another format. What the message
does not fill has its default. -/
def view : (fs : Fields ν κ) → {t : Fields ν κ} → Record Val t → Record Val fs
  | [], _, _ => ()
  | _ :: fs, [], _ => (default, view fs (t := []) ())
  | f :: fs, g :: _, r => (if h : g.2 = f.2 then h ▸ r.1 else default, view fs r.2)

theorem view_self {fs : Fields ν κ} (r : Record Val fs) : view fs r = r := by
  induction fs with
  | nil => rfl
  | cons f fs ih =>
    simp only [view, dite_true, ih]
    rfl

theorem view_cons {f : ν × κ} {fs gs : Fields ν κ} (r : Record Val (f :: gs)) :
    view (f :: fs) r = (r.1, view fs (t := gs) r.2) := Prod.ext (dif_pos rfl) rfl

/-- A reader that knows the first fields reads those. -/
theorem decodeFields_prefix (codec : Codec κ Val) (fs gs : Fields ν κ) (r : Record Val (fs ++ gs))
    (rest : Bytes) :
    ∃ left, decodeFields codec fs (encodeFields codec r ++ rest) = some (view fs r, left) := by
  induction fs with
  | nil => exact ⟨_, rfl⟩
  | cons f fs ih =>
    obtain ⟨left, hleft⟩ := ih r.2
    refine ⟨left, ?_⟩
    change ((codec.decode f.2 (codec.encode f.2 r.1 ++ encodeFields codec r.2 ++ rest)).bind _) = _
    rw [List.append_assoc, codec.decode_encode, Option.bind_some, hleft, Option.map_some]
    exact congrArg (fun v => some (v, left)) (view_cons r).symm

variable [DecidableEq ν]

theorem get_view_nil {gs : Fields ν κ} (hnodup : (gs.map Prod.fst).Nodup) {g : ν × κ} (hg : g ∈ gs) :
    Record.get (view gs (t := []) () : Record Val gs) g.1 = some ⟨g.2, default⟩ := by
  induction gs with
  | nil => cases hg
  | cons f gs ih =>
    rw [List.map_cons, List.nodup_cons] at hnodup
    cases hg with
    | head => exact Record.get_head _
    | tail _ hg =>
      have hne : f.1 ≠ g.1 := fun h => hnodup.1 (h ▸ List.mem_map_of_mem hg)
      rw [Record.get_tail _ hne]
      exact ih hnodup.2 hg

theorem view_prefix_iff (fs gs : Fields ν κ) (hnodup : ((fs ++ gs).map Prod.fst).Nodup)
    (r : Record Val (fs ++ gs)) :
    (∀ f ∈ fs ++ gs, Record.get (view (fs ++ gs) (view fs r)) f.1 = Record.get r f.1) ↔
      ∀ g ∈ gs, Record.get r g.1 = some ⟨g.2, default⟩ := by
  induction fs with
  | nil => exact forall₂_congr fun g hg => by rw [← get_view_nil hnodup hg]; exact eq_comm
  | cons f fs ih =>
    obtain ⟨hf, hnodup⟩ : f.1 ∉ (fs ++ gs).map Prod.fst ∧ ((fs ++ gs).map Prod.fst).Nodup :=
      List.nodup_cons.mp hnodup
    have hview : view (f :: (fs ++ gs)) (view (f :: fs) (t := f :: (fs ++ gs)) r) =
        (r.1, view (fs ++ gs) (view fs (t := fs ++ gs) r.2)) :=
      (congrArg _ (view_cons r)).trans (view_cons _)
    have hget {g : ν × κ} (hg : g ∈ gs) :
        Record.get (t := f :: (fs ++ gs)) r g.1 = Record.get (t := fs ++ gs) r.2 g.1 :=
      Record.get_tail r fun h => hf (h ▸ List.mem_map_of_mem (List.mem_append_right fs hg))
    change (∀ g ∈ f :: (fs ++ gs), Record.get (view (f :: (fs ++ gs)) (view (f :: fs)
      (t := f :: (fs ++ gs)) r)) g.1 = Record.get (t := f :: (fs ++ gs)) r g.1) ↔
        ∀ g ∈ gs, Record.get (t := f :: (fs ++ gs)) r g.1 = some ⟨g.2, default⟩
    rw [hview]
    calc
      _ ↔ ∀ g ∈ fs ++ gs, Record.get (view (fs ++ gs) (view fs (t := fs ++ gs) r.2)) g.1 =
          Record.get (t := fs ++ gs) r.2 g.1 :=
        forall_get_cons hf (a := (r.1, view (fs ++ gs) (view fs (t := fs ++ gs) r.2))) (b := r) rfl
      _ ↔ ∀ g ∈ gs, Record.get (t := fs ++ gs) r.2 g.1 = some ⟨g.2, default⟩ := ih hnodup r.2
      _ ↔ _ := forall₂_congr fun g hg => by rw [hget hg]

/-- The formats that a message passes: what the sender lists, the type it fills,
the ones by which the message is written and read, and the type of the receiver. -/
structure Route (ν κ : Type*) where
  members : Fields ν κ
  sent : Fields ν κ
  written : Fields ν κ
  registered : Fields ν κ
  received : Fields ν κ

namespace Route

variable (codec : Codec κ Val)

def deliver (route : Route ν κ) (r : Record Val route.members) : Option (Record Val route.received) :=
  (decodeFields codec route.registered
    (encodeFields codec (view route.written (view route.sent r)))).map fun got =>
      view route.received got.1

def Carries (route : Route ν κ) (r : Record Val route.members) : Prop :=
  ∃ got, route.deliver codec r = some got ∧ ∀ f ∈ route.received, Record.get got f.1 = Record.get r f.1

def plain (fs : Fields ν κ) : Route ν κ := ⟨fs, fs, fs, fs, fs⟩

/-- The message is read as one that lacks the last fields. -/
def short (fs gs : Fields ν κ) : Route ν κ := ⟨fs ++ gs, fs ++ gs, fs ++ gs, fs, fs ++ gs⟩

omit [DecidableEq ν] in
theorem deliver_plain {fs : Fields ν κ} (r : Record Val fs) : (plain fs).deliver codec r = some r := by
  have hread := decodeFields_encodeFields codec r []
  rw [List.append_nil] at hread
  simp only [plain, deliver, view_self, hread, Option.map_some]

theorem carries_of_plain {route : Route ν κ} (h : route = plain route.members)
    (r : Record Val route.members) : route.Carries codec r := by
  obtain ⟨fs, sent, written, registered, received⟩ := route
  rw [plain, mk.injEq] at h
  obtain ⟨-, rfl, rfl, rfl, rfl⟩ := h
  exact ⟨r, deliver_plain codec r, fun _ _ => rfl⟩

theorem Carries.get_eq {route : Route ν κ} {r : Record Val route.members}
    (h : route.Carries codec r) {got : Record Val route.received}
    (hgot : route.deliver codec r = some got) (n : ν) :
    Record.get got n = Record.get r n ∨ Record.get got n = none := by
  obtain ⟨got', hgot', hget⟩ := h
  cases hgot.symm.trans hgot'
  by_cases hn : n ∈ route.received.map Prod.fst
  · obtain ⟨f, hf, rfl⟩ := List.mem_map.mp hn
    exact .inl (hget f hf)
  · exact .inr (Record.get_eq_none got hn)

omit [DecidableEq ν] in
theorem deliver_short (fs gs : Fields ν κ) (r : Record Val (fs ++ gs)) :
    (short fs gs).deliver codec r = some (view (fs ++ gs) (view fs r)) := by
  obtain ⟨left, hread⟩ := decodeFields_prefix codec fs gs r []
  rw [List.append_nil] at hread
  simp only [short, deliver, view_self, hread, Option.map_some]

/-- What the reader does not know is lost, unless it is what it has by default. -/
theorem carries_short_iff (fs gs : Fields ν κ) (hnodup : ((fs ++ gs).map Prod.fst).Nodup)
    (r : Record Val (fs ++ gs)) :
    (short fs gs).Carries codec r ↔ ∀ g ∈ gs, Record.get r g.1 = some ⟨g.2, default⟩ := by
  rw [← view_prefix_iff fs gs hnodup r]
  refine ⟨fun ⟨got, hgot, h⟩ => ?_, fun h => ⟨_, deliver_short codec fs gs r, h⟩⟩
  cases hgot.symm.trans (deliver_short codec fs gs r)
  exact h

end Route

end View

end GaoFS.Library.Wire
