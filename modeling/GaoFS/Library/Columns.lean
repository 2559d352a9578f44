import GaoFS.Library.ByteFile
import Mathlib.Algebra.BigOperators.Group.List.Basic

namespace GaoFS.Library.Columns

open ByteFile

variable {α ε : Type*}

/-- A store, which has to stay inside the buffer. -/
def poke (pos : Nat) (data buf : List α) : Option (List α) :=
  if pos + data.length ≤ buf.length then some (copyAt pos data buf) else none

/-- A pointer that runs through one column: what it stores for an element, and how far
it moves on then. -/
structure Cursor (α ε : Type*) where
  store : ε → List α
  step : ε → Nat

def storeEach (e : ε) : List (Cursor α ε × Nat) → List α → Option (List α)
  | [], buf => some buf
  | (c, pos) :: cs, buf => (poke pos (c.store e) buf).bind (storeEach e cs)

def advance (e : ε) (cs : List (Cursor α ε × Nat)) : List (Cursor α ε × Nat) :=
  cs.map fun c => (c.1, c.2 + c.1.step e)

/-- The loop over the elements, which stores one at every pointer and moves them all. -/
def storeAll : List ε → List (Cursor α ε × Nat) → List α → Option (List α)
  | [], _, buf => some buf
  | e :: es, cs, buf => (storeEach e cs buf).bind (storeAll es (advance e cs))

/-- The pointers before the first element, each where the column before it ends. -/
def starts (es : List ε) : Nat → List (Cursor α ε) → List (Cursor α ε × Nat)
  | _, [] => []
  | base, c :: cs => (c, base) :: starts es (base + (es.map c.step).sum) cs

theorem poke_eq {pos : Nat} {data buf : List α} (h : pos + data.length ≤ buf.length) :
    poke pos data buf = some (copyAt pos data buf) := if_pos h

theorem poke_append (front written old back data : List α) (h : data.length ≤ old.length) :
    poke (front.length + written.length) data (front ++ (written ++ old ++ back)) =
      some (front ++ (written ++ data ++ old.drop data.length ++ back)) := by
  have hfit : front.length + written.length + data.length ≤
      (front ++ (written ++ old ++ back)).length := by
    simp only [List.length_append]
    omega
  have hlength : (front ++ written).length = front.length + written.length := List.length_append
  have hbuf : front ++ (written ++ old ++ back) = (front ++ written) ++ (old ++ back) := by
    simp only [List.append_assoc]
  rw [poke, if_pos hfit, copyAt, hbuf, ← hlength, List.take_left, ← List.drop_drop, List.drop_left,
    List.drop_append_of_le_length h]
  simp only [List.append_assoc]

section Regions

/-- The part of the buffer that belongs to one pointer. -/
structure Region (α ε : Type*) where
  cursor : Cursor α ε
  written : List α
  rest : List α

def Region.content (r : Region α ε) : List α := r.written ++ r.rest

def Region.put (e : ε) (r : Region α ε) : Region α ε where
  cursor := r.cursor
  written := r.written ++ r.cursor.store e
  rest := r.rest.drop (r.cursor.store e).length

def places : Nat → List (Region α ε) → List (Cursor α ε × Nat)
  | _, [] => []
  | base, r :: rs => (r.cursor, base + r.written.length) :: places (base + r.content.length) rs

theorem length_put {e : ε} {r : Region α ε} (h : (r.cursor.store e).length ≤ r.rest.length) :
    (r.put e).content.length = r.content.length := by
  simp only [Region.put, Region.content, List.length_append, List.length_drop]
  omega

theorem storeEach_places (e : ε) (front : List α) {rs : List (Region α ε)}
    (h : ∀ r ∈ rs, (r.cursor.store e).length ≤ r.rest.length) :
    storeEach e (places front.length rs) (front ++ rs.flatMap Region.content) =
      some (front ++ (rs.map (Region.put e)).flatMap Region.content) := by
  induction rs generalizing front with
  | nil => rfl
  | cons r rs ih =>
    obtain ⟨hr, hrs⟩ := List.forall_mem_cons.mp h
    have hpoke := poke_append front r.written r.rest (rs.flatMap Region.content) (r.cursor.store e) hr
    have hrest := ih (front ++ (r.put e).content) hrs
    rw [List.length_append, length_put hr] at hrest
    rw [List.flatMap_cons, places, storeEach]
    rw [Region.content, hpoke, Option.bind_some, List.map_cons, List.flatMap_cons]
    rw [List.append_assoc, List.append_assoc] at hrest
    exact hrest

theorem advance_places {e : ε} (base : Nat) {rs : List (Region α ε)}
    (hstep : ∀ r ∈ rs, (r.cursor.store e).length = r.cursor.step e)
    (h : ∀ r ∈ rs, (r.cursor.store e).length ≤ r.rest.length) :
    advance e (places base rs) = places base (rs.map (Region.put e)) := by
  induction rs generalizing base with
  | nil => rfl
  | cons r rs ih =>
    obtain ⟨hr, hrs⟩ := List.forall_mem_cons.mp h
    obtain ⟨hr', hrs'⟩ := List.forall_mem_cons.mp hstep
    have hwritten : (r.put e).written.length = r.written.length + r.cursor.step e := by
      rw [Region.put, List.length_append, hr']
    rw [List.map_cons, places, places, length_put hr, hwritten, ← ih _ hrs' hrs, ← Nat.add_assoc]
    rfl

/-- After the loop every region holds its column. -/
theorem storeAll_places {es : List ε} {rs : List (Region α ε)}
    (hstep : ∀ r ∈ rs, ∀ e ∈ es, (r.cursor.store e).length = r.cursor.step e)
    (hroom : ∀ r ∈ rs, r.rest.length = (es.map r.cursor.step).sum) :
    storeAll es (places 0 rs) (rs.flatMap Region.content) =
      some (rs.flatMap fun r => r.written ++ es.flatMap r.cursor.store) := by
  induction es generalizing rs with
  | nil =>
    have hcontent : rs.flatMap Region.content = rs.flatMap fun r => r.written ++ [] := by
      apply List.flatMap_congr
      intro r hr
      rw [Region.content, List.length_eq_zero_iff.mp (hroom r hr)]
    exact congrArg some hcontent
  | cons e es ih =>
    have hhead : ∀ r ∈ rs, (r.cursor.store e).length = r.cursor.step e := fun r hr =>
      hstep r hr e List.mem_cons_self
    have hfits : ∀ r ∈ rs, (r.cursor.store e).length ≤ r.rest.length := by
      intro r hr
      rw [hroom r hr, hhead r hr, List.map_cons, List.sum_cons]
      exact Nat.le_add_right _ _
    have hstep' : ∀ r ∈ rs.map (Region.put e), ∀ x ∈ es, (r.cursor.store x).length = r.cursor.step x :=
      List.forall_mem_map.mpr fun r hr x hx => hstep r hr x (List.mem_cons_of_mem e hx)
    have hroom' : ∀ r ∈ rs.map (Region.put e), r.rest.length = (es.map r.cursor.step).sum :=
      List.forall_mem_map.mpr fun r hr => by
        have hlength := hroom r hr
        rw [List.map_cons, List.sum_cons] at hlength
        rw [Region.put, List.length_drop, hlength, hhead r hr, Nat.add_sub_cancel_left]
    have hrest := ih hstep' hroom'
    have hstore := storeEach_places e [] hfits
    rw [List.nil_append, List.nil_append, List.length_nil] at hstore
    rw [storeAll, hstore, Option.bind_some, advance_places 0 hhead hfits, hrest, List.flatMap_map]
    apply congrArg some
    apply List.flatMap_congr
    intro r _
    rw [Region.put, List.flatMap_cons, List.append_assoc]

end Regions

section Buffer

/-- The buffer cut at the ends of the columns. -/
def cutAt (es : List ε) : List (Cursor α ε) → List α → List (Region α ε)
  | [], _ => []
  | c :: cs, buf =>
    ⟨c, [], buf.take (es.map c.step).sum⟩ :: cutAt es cs (buf.drop (es.map c.step).sum)

variable {es : List ε} {cs : List (Cursor α ε)} {buf : List α}

theorem cutAt_spec (base : Nat) (h : buf.length = (cs.map fun c => (es.map c.step).sum).sum) :
    places base (cutAt es cs buf) = starts es base cs ∧
      (cutAt es cs buf).flatMap Region.content = buf ∧
      (∀ r ∈ cutAt es cs buf, r.cursor ∈ cs ∧ r.rest.length = (es.map r.cursor.step).sum) ∧
      ((cutAt es cs buf).flatMap fun r => r.written ++ es.flatMap r.cursor.store) =
        cs.flatMap fun c => es.flatMap c.store := by
  induction cs generalizing base buf with
  | nil =>
    rw [List.map_nil, List.sum_nil] at h
    exact ⟨rfl, (List.length_eq_zero_iff.mp h).symm, List.forall_mem_nil _, rfl⟩
  | cons c cs ih =>
    rw [List.map_cons, List.sum_cons] at h
    have htake : (buf.take (es.map c.step).sum).length = (es.map c.step).sum :=
      List.length_take_of_le (by omega)
    have hdrop : (buf.drop (es.map c.step).sum).length = (cs.map fun c => (es.map c.step).sum).sum := by
      rw [List.length_drop, h, Nat.add_sub_cancel_left]
    obtain ⟨hplaces, hcontent, hrooms, hcolumns⟩ := ih (base + (es.map c.step).sum) hdrop
    refine ⟨?_, ?_, List.forall_mem_cons.mpr ⟨⟨List.mem_cons_self, htake⟩, fun r hr => ?_⟩, ?_⟩
    · have hregion : Region.content (⟨c, [], buf.take (es.map c.step).sum⟩ : Region α ε) =
          buf.take (es.map c.step).sum := rfl
      rw [cutAt, places, starts, hregion, htake, hplaces]
      rfl
    · rw [cutAt, List.flatMap_cons, hcontent]
      exact List.take_append_drop _ _
    · obtain ⟨hmem, hlength⟩ := hrooms r hr
      exact ⟨List.mem_cons_of_mem c hmem, hlength⟩
    · rw [cutAt, List.flatMap_cons, List.flatMap_cons, hcolumns]
      rfl

/-- Pointers that start side by side and store as much as they move on fill the buffer with
their columns, whatever it held. -/
theorem storeAll_starts (hstep : ∀ c ∈ cs, ∀ e ∈ es, (c.store e).length = c.step e)
    (h : buf.length = (cs.map fun c => (es.map c.step).sum).sum) :
    storeAll es (starts es 0 cs) buf = some (cs.flatMap fun c => es.flatMap c.store) := by
  obtain ⟨hplaces, hcontent, hrooms, hcolumns⟩ := cutAt_spec 0 h
  have hall := storeAll_places (fun r hr => hstep r.cursor (hrooms r hr).1) fun r hr => (hrooms r hr).2
  rw [hplaces, hcontent, hcolumns] at hall
  exact hall

end Buffer

end GaoFS.Library.Columns
