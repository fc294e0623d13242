import LedgerCache.Operation
import LedgerCache.Proofs.Planning

namespace LedgerCache

open Std

namespace Cache

variable {nominate : Nomination}

/-- The cache is open and holds `r`, which is sound. -/
structure Holds (c : Cache nominate) (r : Resident) : Prop where
  resident : c.resident = some r
  not_closed : c.closed = false
  sound : r.Sound
  capacity : r.budget.capacity = c.capacity.toNat

/-- The cache is open and sound, or closed in both of the ways in which it says so. -/
def Sound (c : Cache nominate) : Prop :=
  (c.resident = none ∧ c.closed = true) ∨ ∃ r, c.Holds r

/-- A put that stores the payload in place of the victims. -/
def admission (c : Cache nominate) (r : Resident) (key : Key) (payload : Payload)
    (victims : List Key) : Step nominate Unit where
  result := .ok ()
  cache :=
    { c with
      resident := some ((r.cleared key victims).stored key payload)
      counters := c.counters.evict (UInt64.ofNat victims.length) }
  events := (Resident.evictions ((r.without key).leaving victims)).toList
  calls := (Resident.forgets (r.leaving [key]) ++
    Resident.forgets ((r.without key).leaving victims) ++
      #[PolicyCall.admitted key r.order.next]).toList

/-- Whether the operation gets as far as an admission. -/
def admits (c : Cache nominate) : Operation → Bool
  | .put key payload =>
    match c.objection key payload.size, c.resident with
    | none, some r =>
      match r.plan nominate key payload.size with
      | .ok (some _) => true
      | _ => false
    | _, _ => false
  | _ => false

/-- A sound cache that holds something is open. -/
theorem Sound.holds {c : Cache nominate} (hs : c.Sound) {r : Resident} (hr : c.resident = some r) :
    c.Holds r := by
  rcases hs with ⟨hnone, -⟩ | ⟨r', h⟩
  · rw [hnone] at hr
    cases hr
  · have hheld := h.resident
    rw [hr] at hheld
    cases hheld
    exact h

/-- A sound cache that holds nothing says so. -/
theorem Sound.closed_of_none {c : Cache nominate} (hs : c.Sound) (hr : c.resident = none) :
    c.closed = true := by
  rcases hs with ⟨-, hc⟩ | ⟨r, h⟩
  · exact hc
  · rw [h.resident] at hr
    cases hr

theorem put_of_closed {c : Cache nominate} (hc : c.closed = true) (key : Key) (payload : Payload) :
    c.put key payload = c.refuseClosed := by
  simp [put, check, objection, hc, refuseClosed, Step.andThen]

theorem get_of_closed {c : Cache nominate} (hr : c.resident = none) (key : Key) :
    c.get key = c.refuseClosed := by
  simp only [get, hr]

theorem objection_ne_closed {c : Cache nominate} (hopen : c.closed = false) {key : Key} {size : Nat}
    {e : Error} (he : c.objection key size = some e) : e ≠ .closed := by
  rintro rfl
  simp only [objection, hopen, Bool.false_eq_true, if_false] at he
  split_ifs at he <;> cases he

theorem put_of_objection {c : Cache nominate} {key : Key} {payload : Payload} {e : Error}
    (hopen : c.closed = false) (he : c.objection key payload.size = some e) :
    c.put key payload = c.reject key e := by
  have hne := objection_ne_closed hopen he
  rw [put, check, he]
  cases e <;> first | exact absurd rfl hne | rfl

theorem put_of_no_objection {c : Cache nominate} {key : Key} {payload : Payload}
    (hv : c.objection key payload.size = none) : c.put key payload = c.accept key payload := by
  rw [put, check, hv]
  rfl

namespace Holds

variable {c : Cache nominate} {r : Resident} {key : Key} {payload : Payload} {victims : List Key}

theorem capacity_lt (h : c.Holds r) : r.budget.capacity < wordLimit := by
  rw [h.capacity]
  exact c.capacity.toNat_lt

theorem objection_eq_none_iff (h : c.Holds r) (key : Key) (size : Nat) :
    c.objection key size = none ↔ 0 ≤ key.owner ∧ 0 < size ∧ size ≤ r.budget.capacity := by
  rw [objection, h.not_closed, h.capacity]
  simp only [Bool.false_eq_true, if_false]
  split_ifs with h1 h2 h3
  · simp [Int64.not_le.2 h1]
  · simp [h2]
  · simp [h3]
  · simp [Int64.not_lt.1 h1]
    omega

theorem eq_of_resident (h : c.Holds r) {r' : Resident} (hr : c.resident = some r') : r' = r := by
  rw [h.resident] at hr
  exact (Option.some.inj hr).symm

theorem get_of_some (h : c.Holds r) {e : Entry} (he : r.index[key]? = some e) :
    c.get key = ⟨.ok (some e.payload), { c with counters := c.counters.hit }, [], []⟩ := by
  simp only [get, h.resident, he]

theorem get_of_none (h : c.Holds r) (he : r.index[key]? = none) :
    c.get key = ⟨.ok none, { c with counters := c.counters.miss }, [], []⟩ := by
  simp only [get, h.resident, he]

theorem plan_of_chosen_none (h : c.Holds r) (hv : c.objection key payload.size = none)
    (hc : r.chosen nominate key payload.size = none) :
    r.plan nominate key payload.size = .ok none := by
  have hsize := ((h.objection_eq_none_iff _ _).1 hv).2.2
  have hcapacity := h.capacity_lt
  have hplan := h.sound.plan_eq nominate key payload.size hcapacity (by omega)
  rwa [hc] at hplan

theorem plan_of_chosen (h : c.Holds r) (hv : c.objection key payload.size = none)
    (hc : r.chosen nominate key payload.size = some victims) :
    r.plan nominate key payload.size =
      if r.budget.available + r.sizeAt key + r.bytesAt victims < wordLimit then .ok (some victims)
      else .error .additionOverflow := by
  have hsize := ((h.objection_eq_none_iff _ _).1 hv).2.2
  have hcapacity := h.capacity_lt
  have hplan := h.sound.plan_eq nominate key payload.size hcapacity (by omega)
  rwa [hc] at hplan

theorem admits_iff (h : c.Holds r) (hv : c.objection key payload.size = none)
    (hc : r.chosen nominate key payload.size = some victims) :
    c.admits (.put key payload) ↔
      r.budget.available + r.sizeAt key + r.bytesAt victims < wordLimit := by
  have hplan := h.plan_of_chosen hv hc
  simp only [admits, hv, h.resident, hplan]
  split_ifs with hadd
  · simp [hadd]
  · simp [hadd]

theorem plan_of_admits (h : c.Holds r) (hv : c.objection key payload.size = none)
    (hc : r.chosen nominate key payload.size = some victims)
    (hadmits : c.admits (.put key payload)) :
    r.plan nominate key payload.size = .ok (some victims) := by
  rw [h.plan_of_chosen hv hc, if_pos ((h.admits_iff hv hc).1 hadmits)]

theorem not_admits_of_chosen_none (h : c.Holds r) (hv : c.objection key payload.size = none)
    (hc : r.chosen nominate key payload.size = none) : ¬c.admits (.put key payload) := by
  have hplan := h.plan_of_chosen_none hv hc
  simp [admits, hv, h.resident, hplan]

theorem put_of_chosen_none (h : c.Holds r) (hv : c.objection key payload.size = none)
    (hc : r.chosen nominate key payload.size = none) :
    c.put key payload = c.reject key (.noRoom payload.size r.budget.available) := by
  have hplan := h.plan_of_chosen_none hv hc
  rw [put_of_no_objection hv, accept, h.resident]
  simp only [hplan]

theorem put_of_fits (h : c.Holds r) (hv : c.objection key payload.size = none)
    (hc : r.chosen nominate key payload.size = some victims)
    (hadmits : c.admits (.put key payload)) (hnext : r.order.next + 1 < wordLimit)
    (hfits : payload.size ≤ (r.cleared key victims).budget.available) :
    c.put key payload = c.admission r key payload victims := by
  obtain ⟨howner, hsize, -⟩ := (h.objection_eq_none_iff _ _).1 hv
  have hplan := h.plan_of_admits hv hc hadmits
  rw [put_of_no_objection hv, accept, h.resident]
  simp only [hplan, h.sound.accept_eq howner hsize hfits hnext]
  rfl

theorem put_of_fault (h : c.Holds r) (hv : c.objection key payload.size = none)
    (hc : r.chosen nominate key payload.size = some victims)
    (hadmits : c.admits (.put key payload)) {f : Fault}
    (hstore : ((r.cleared key victims).store key payload).fault = some f) :
    (c.put key payload).result = .error (.fault f) := by
  have hplan := h.plan_of_admits hv hc hadmits
  rw [put_of_no_objection hv, accept, h.resident]
  simp only [hplan, h.sound.fault_accept hstore]

theorem put_of_not_admits (h : c.Holds r) (hv : c.objection key payload.size = none)
    (hc : r.chosen nominate key payload.size = some victims)
    (hadmits : ¬c.admits (.put key payload)) :
    (c.put key payload).result = .error (.fault .additionOverflow) := by
  have hplan := h.plan_of_chosen hv hc
  rw [if_neg (fun hadd => hadmits ((h.admits_iff hv hc).2 hadd))] at hplan
  rw [put_of_no_objection hv, accept, h.resident]
  simp only [hplan]

/-- A put for which no stamp is left has made its room before it fails. -/
theorem put_of_last (h : c.Holds r) (hv : c.objection key payload.size = none)
    (hc : r.chosen nominate key payload.size = some victims)
    (hadmits : c.admits (.put key payload)) (hlast : ¬r.order.next + 1 < wordLimit) :
    (c.put key payload).cache = { c with resident := some (r.cleared key victims) } := by
  have hplan := h.plan_of_admits hv hc hadmits
  obtain ⟨hresident, hfault⟩ := h.sound.accept_of_last key payload victims hlast
  rw [put_of_no_objection hv, accept, h.resident]
  simp only [hplan, hresident, hfault]

/-- Victims that are named once make enough room, and their sum is no more than the capacity. -/
theorem admits_of_nodup (h : c.Holds r) (hv : c.objection key payload.size = none)
    (hc : r.chosen nominate key payload.size = some victims) (hn : victims.Nodup) :
    c.admits (.put key payload) ∧ payload.size ≤ (r.cleared key victims).budget.available := by
  obtain ⟨-, -, -, henough, -⟩ := Resident.chosen_eq_some hc
  have hroom := h.sound.available_cleared key victims
  rw [Resident.sum_leaving_of_nodup hc hn] at hroom
  have hle : (r.cleared key victims).budget.available ≤ r.budget.capacity := by
    rw [Budget.available, Resident.capacity_cleared]
    exact Nat.sub_le _ _
  have hcapacity := h.capacity_lt
  exact ⟨(h.admits_iff hv hc).2 (by omega), by omega⟩

theorem admission_holds (h : c.Holds r) (hv : c.objection key payload.size = none)
    (hfits : payload.size ≤ (r.cleared key victims).budget.available) :
    (c.admission r key payload victims).cache.Holds ((r.cleared key victims).stored key payload) := by
  obtain ⟨howner, hsize, -⟩ := (h.objection_eq_none_iff _ _).1 hv
  have hkey := r.index_cleared_self key victims
  constructor
  case resident => rfl
  case not_closed => exact h.not_closed
  case sound => exact (h.sound.cleared key victims).stored hkey howner hsize hfits
  case capacity => exact (r.capacity_cleared key victims).trans h.capacity

/-- The three ways in which a put that was not refused can end. It fails only if a victim is named
again or the stamps have run out. -/
theorem put_cases (h : c.Holds r) (hv : c.objection key payload.size = none) :
    (r.chosen nominate key payload.size = none ∧
      c.put key payload = c.reject key (.noRoom payload.size r.budget.available)) ∨
    ∃ victims, r.chosen nominate key payload.size = some victims ∧
      (payload.size ≤ (r.cleared key victims).budget.available ∧ c.admits (.put key payload) ∧
          r.order.next + 1 < wordLimit ∧ c.put key payload = c.admission r key payload victims ∨
        (victims.Nodup → c.admits (.put key payload) ∧ ¬r.order.next + 1 < wordLimit) ∧
          ∃ f, (c.put key payload).result = .error (.fault f)) := by
  cases hc : r.chosen nominate key payload.size with
  | none => exact .inl ⟨rfl, h.put_of_chosen_none hv hc⟩
  | some victims =>
    refine .inr ⟨victims, rfl, ?_⟩
    have hnodup (hn : victims.Nodup) := h.admits_of_nodup hv hc hn
    by_cases hadmits : c.admits (.put key payload)
    · by_cases hnext : r.order.next + 1 < wordLimit
      · by_cases hfits : payload.size ≤ (r.cleared key victims).budget.available
        · exact .inl ⟨hfits, hadmits, hnext, h.put_of_fits hv hc hadmits hnext hfits⟩
        · have hstore := (r.cleared key victims).fault_store_of_full key (Nat.lt_of_not_le hfits)
            (by rwa [r.next_cleared])
          exact .inr ⟨fun hn => absurd (hnodup hn).2 hfits, _,
            h.put_of_fault hv hc hadmits hstore⟩
      · have hstore := (r.cleared key victims).fault_store_of_last key payload
          (by rwa [r.next_cleared])
        exact .inr ⟨fun _ => ⟨hadmits, hnext⟩, _, h.put_of_fault hv hc hadmits hstore⟩
    · exact .inr ⟨fun hn => absurd (hnodup hn).1 hadmits, _, h.put_of_not_admits hv hc hadmits⟩

/-- Under a policy that names no tracked key twice, a put that was not refused finds too little room
or stores its payload. -/
theorem put_cases_of_namesOnce (h : c.Holds r) (hn : nominate.NamesOnce)
    (hv : c.objection key payload.size = none)
    (hnext : c.admits (.put key payload) → r.order.next + 1 < wordLimit) :
    (r.chosen nominate key payload.size = none ∧
      c.put key payload = c.reject key (.noRoom payload.size r.budget.available)) ∨
    ∃ victims, r.chosen nominate key payload.size = some victims ∧ victims.Nodup ∧
      payload.size ≤ (r.cleared key victims).budget.available ∧ c.admits (.put key payload) ∧
      c.put key payload = c.admission r key payload victims := by
  rcases h.put_cases hv with
    hfull | ⟨victims, hc, ⟨hfits, hadmits, -, hput⟩ | ⟨hcause, -⟩⟩
  · exact .inl hfull
  · exact .inr ⟨victims, hc, h.sound.nodup_chosen hn hc, hfits, hadmits, hput⟩
  · obtain ⟨hadmits, hlast⟩ := hcause (h.sound.nodup_chosen hn hc)
    exact absurd (hnext hadmits) hlast

/-- First in, first out, a put that is not refused stores its payload. -/
theorem put_oldestFirst {c : Cache .oldestFirst} (h : c.Holds r)
    (hv : c.objection key payload.size = none) (hnext : r.order.next + 1 < wordLimit) :
    payload.size ≤ (r.cleared key (r.oldest key payload.size)).budget.available ∧
      c.admits (.put key payload) ∧
      c.put key payload = c.admission r key payload (r.oldest key payload.size) := by
  have hsize := ((h.objection_eq_none_iff _ _).1 hv).2.2
  have hchosen := h.sound.chosen_oldestFirst key payload.size hsize
  obtain ⟨hadmits, hfits⟩ := h.admits_of_nodup hv hchosen (h.sound.nodup_oldest key _)
  exact ⟨hfits, hadmits, h.put_of_fits hv hchosen hadmits hnext hfits⟩

theorem admits_oldestFirst {c : Cache .oldestFirst} (h : c.Holds r)
    (hv : c.objection key payload.size = none) : c.admits (.put key payload) := by
  have hsize := ((h.objection_eq_none_iff _ _).1 hv).2.2
  have hchosen := h.sound.chosen_oldestFirst key payload.size hsize
  exact (h.admits_of_nodup hv hchosen (h.sound.nodup_oldest key _)).1

theorem close_eq (h : c.Holds r) :
    c.close =
      { result := .ok (), cache := { c with closed := true, resident := none }
        events := [.cacheClosed r.index.size r.budget.used], calls := [.cleared] } := by
  rw [close, h.resident]
  simp [finishClose, h.sound.size_order]

end Holds

end Cache

end LedgerCache
