import Ignium.Kernel.Fdt
import Ignium.Lib.Machine

/-!
# Reserved ranges

`BoardParams.addReserved` keeps at most eight ranges that must not be allocated. A new range swallows
the stored ranges that it overlaps, one after the other; the last stored range takes the place of a
swallowed one and is looked at next. The ranges that the loop has passed stay apart from the growing
range, because the ranges it swallows are apart from them (`Merging.Inv`).

`reserved_ranges` says what is stored after any sequence of calls.
-/

namespace Ignium.Kernel

open Bytes

theorem returns_setAt {α : Type} {n i : Nat} (v : Vector α n) (a : α) (h : i < n) :
    Returns (setAt v i a) (· = v.set i a h) := ⟨_, dif_pos h, rfl⟩

theorem returns_getElem {α : Type} {n i : Nat} (v : Vector α n) (h : i < n) :
    Returns v[i]? fun a => v[i]? = some a :=
  ⟨v[i], Vector.getElem?_eq_getElem h, Vector.getElem?_eq_getElem h⟩

/-- The addresses of a range, whose end saturates. -/
def InRange (r : Nat × Nat) (x : Nat) : Prop := r.1 ≤ x ∧ x < saturatingAdd r.1 r.2

/-- Two ranges have no address in common. -/
def Apart (r r' : Nat × Nat) : Prop := ∀ x, InRange r x → ¬ InRange r' x

/-- Swallowing a range that overlaps gives the union of the two. -/
theorem inRange_union {r r' : Nat × Nat} (hlow : r.1 < saturatingAdd r'.1 r'.2)
    (hhigh : r'.1 < saturatingAdd r.1 r.2) (x : Nat) :
    InRange (min r.1 r'.1, max (saturatingAdd r.1 r.2) (saturatingAdd r'.1 r'.2) - min r.1 r'.1) x ↔
      InRange r x ∨ InRange r' x := by
  simp only [InRange, saturatingAdd] at *
  omega

namespace BoardParams

/-- The stored range at an index. -/
def entry (p : BoardParams) (j : Nat) : Nat × Nat := p.reserved[j]?.getD (0, 0)

/-- The stored ranges are apart from each other. -/
def Separate (p : BoardParams) : Prop :=
  ∀ j j', j < p.reservedCount → j' < p.reservedCount → j ≠ j' → Apart (p.entry j) (p.entry j')

/-- An address lies in a stored range. -/
def Covers (p : BoardParams) (x : Nat) : Prop := ∃ j < p.reservedCount, InRange (p.entry j) x

theorem entry_eq {p : BoardParams} {j : Nat} {r : Nat × Nat} (h : p.reserved[j]? = some r) :
    p.entry j = r := by rw [entry, h, Option.getD_some]

theorem entry_set {p p' : BoardParams} {i : Nat} {r : Nat × Nat} (hi : i < maxReserved)
    (h : p'.reserved = p.reserved.set i r hi) (j : Nat) :
    p'.entry j = if j = i then r else p.entry j := by
  rw [entry, entry, h, Vector.getElem?_set]
  by_cases hj : j = i
  · simp [hj]
  · simp [hj, Ne.symm hj]

/-! ## A round of the loop -/

/-- What a round does: the new range swallows a stored one, or passes it. -/
inductive Merges (m : Merging) : Merging → Prop
  | swallow (params : BoardParams) (hlt : m.i < m.params.reservedCount)
      (hlow : m.addr < saturatingAdd (m.params.entry m.i).1 (m.params.entry m.i).2)
      (hhigh : (m.params.entry m.i).1 < m.stop)
      (hcount : params.reservedCount = m.params.reservedCount - 1)
      (hentry : ∀ j, params.entry j =
        if j = m.i then m.params.entry (m.params.reservedCount - 1) else m.params.entry j) :
      Merges m ⟨params, min m.addr (m.params.entry m.i).1,
        max m.stop (saturatingAdd (m.params.entry m.i).1 (m.params.entry m.i).2) -
          min m.addr (m.params.entry m.i).1,
        max m.stop (saturatingAdd (m.params.entry m.i).1 (m.params.entry m.i).2), m.i⟩
  | pass (hlt : m.i < m.params.reservedCount)
      (hapart : ¬ (m.addr < saturatingAdd (m.params.entry m.i).1 (m.params.entry m.i).2 ∧
        m.stop > (m.params.entry m.i).1)) :
      Merges m { m with i := m.i + 1 }

theorem returns_mergeRound (m : Merging) :
    Returns (mergeRound m) (Round.Meets (Merges m) fun t => t = m ∧ m.params.reservedCount ≤ m.i) := by
  have hfits := m.params.fits
  have hmax : maxReserved = 8 := rfl
  refine .ite (fun hlt => ?_) fun hge => .ret ⟨rfl, Nat.not_lt.mp hge⟩
  refine (returns_getElem m.params.reserved (by omega)).bind fun ⟨rAddr, rSize⟩ hr => ?_
  have hentry := entry_eq hr
  refine .ite (fun hoverlap => ?_) fun happart => ?_
  · refine bind_checkedSub (by omega) ?_
    refine (returns_getElem m.params.reserved (by omega)).bind fun last hlast => ?_
    refine (returns_setAt m.params.reserved last (by omega)).bind fun reserved hset => .ret ?_
    have hmerges := Merges.swallow (m := m)
      { m.params with
        reserved
        reservedCount := m.params.reservedCount - 1
        fits := Nat.le_trans (Nat.sub_le _ _) m.params.fits } hlt
      (by rw [hentry]; exact hoverlap.1) (by rw [hentry]; exact hoverlap.2) rfl
      (fun j => by rw [entry_eq hlast]; exact entry_set _ hset j)
    rw [hentry] at hmerges
    exact hmerges
  · refine bind_checkedAdd (by omega) ?_
    exact .ret (.pass hlt (by rw [hentry]; exact happart))

/-- The addresses are those of the new range and of the ranges stored before. The ranges that have
been passed are apart from the growing one, and nothing has changed if nothing was swallowed. -/
structure Merging.Inv (p : BoardParams) (r : Nat × Nat) (m : Merging) : Prop where
  separate : m.params.Separate
  covers : ∀ x, InRange (m.addr, m.size) x ∨ m.params.Covers x ↔ InRange r x ∨ p.Covers x
  passed : ∀ j < m.i, Apart (m.params.entry j) (m.addr, m.size)
  stop : m.stop = saturatingAdd m.addr m.size
  index : m.i ≤ m.params.reservedCount
  fresh : m.params = p ∧ (m.addr, m.size) = r ∨ m.params.reservedCount < p.reservedCount

/-- Removing an entry by moving the last one to its place keeps the other entries. -/
theorem exists_swapped {e e' : Nat → Nat × Nat} {n i : Nat} (hi : i < n)
    (he : ∀ j, e' j = if j = i then e (n - 1) else e j) (P : Nat × Nat → Prop) :
    (∃ j < n - 1, P (e' j)) ↔ ∃ j < n, j ≠ i ∧ P (e j) := by
  constructor
  · rintro ⟨j, hj, hP⟩
    rw [he] at hP
    split at hP
    · exact ⟨n - 1, by omega, by omega, hP⟩
    · next hne => exact ⟨j, by omega, hne, hP⟩
  · rintro ⟨j, hj, hne, hP⟩
    by_cases hlast : j = n - 1
    · refine ⟨i, by omega, ?_⟩
      rw [he, if_pos rfl, ← hlast]
      exact hP
    · refine ⟨j, by omega, ?_⟩
      rw [he, if_neg hne]
      exact hP

theorem Merging.Inv.step {p : BoardParams} {r : Nat × Nat} {m t : Merging} (h : m.Inv p r)
    (hstep : Merges m t) : t.Inv p r := by
  obtain ⟨hseparate, hcovers, hpassed, hstop, hindex, hfresh⟩ := h
  cases hstep with
  | swallow params hlt hlow hhigh hcount hentry =>
    rw [hstop] at hhigh ⊢
    have hunion := inRange_union (r := (m.addr, m.size)) hlow hhigh
    refine ⟨fun j j' hj hj' hne => ?_, fun x => ?_, fun j (hj : j < m.i) x hx => ?_, ?_, ?_, ?_⟩
    · -- Both entries have been stored before, at two indices.
      rw [hcount] at hj hj'
      rw [hentry, hentry]
      split <;> split
      · omega
      · exact hseparate _ _ (by omega) (by omega) (by omega)
      · exact hseparate _ _ (by omega) (by omega) (by omega)
      · exact hseparate _ _ (by omega) (by omega) hne
    · have hrest := exists_swapped hlt hentry (InRange · x)
      rw [← hcovers x, hunion x, Covers, hcount, hrest, Covers]
      constructor
      · rintro ((hx | hx) | ⟨j, hj, -, hx⟩)
        · exact .inl hx
        · exact .inr ⟨m.i, hlt, hx⟩
        · exact .inr ⟨j, hj, hx⟩
      · rintro (hx | ⟨j, hj, hx⟩)
        · exact .inl (.inl hx)
        · by_cases hji : j = m.i
          · exact .inl (.inr (hji ▸ hx))
          · exact .inr ⟨j, hj, hji, hx⟩
    · rw [hentry, if_neg (by omega)] at hx
      rw [hunion x]
      rintro (hx' | hx')
      · exact hpassed j hj x hx hx'
      · exact hseparate j m.i (by omega) hlt (by omega) x hx hx'
    · simp only [saturatingAdd] at *
      omega
    · change m.i ≤ params.reservedCount
      omega
    · refine .inr ?_
      change params.reservedCount < p.reservedCount
      obtain ⟨heq, -⟩ | hless := hfresh
      · rw [← heq]
        omega
      · omega
  | pass hlt hapart =>
    refine ⟨hseparate, hcovers, fun j hj x hx hx' => ?_, hstop, hlt, hfresh⟩
    by_cases hji : j = m.i
    · subst hji
      rw [hstop] at hapart
      simp only [InRange, saturatingAdd] at *
      omega
    · exact hpassed j (by simp at hj; omega) x hx hx'

/-! ## A call -/

/-- The loop of a call. -/
def merged (p : BoardParams) (r : Nat × Nat) : Option Merging :=
  Round.loop mergeRound (p.reservedCount + 1) ⟨p, r.1, r.2, saturatingAdd r.1 r.2, 0⟩

/-- A call of `addReserved` with a range. -/
def reserve (p : BoardParams) (r : Nat × Nat) : Option BoardParams := p.addReserved r.1 r.2

/-- A call does not store its range, because there is no room for it. -/
def Drops (p : BoardParams) (r : Nat × Nat) : Prop :=
  r.1 ≠ 0 ∧ r.2 ≠ 0 ∧ ∃ m, p.merged r = some m ∧ maxReserved ≤ m.params.reservedCount

/-- A call stores its range, if the range is not empty and not dropped. It drops one only when all
places are taken, by ranges that are apart from it. -/
structure Reserves (p : BoardParams) (r : Nat × Nat) (p' : BoardParams) : Prop where
  separate : p'.Separate
  covers : ∀ x, p'.Covers x ↔ r.1 ≠ 0 ∧ r.2 ≠ 0 ∧ ¬ p.Drops r ∧ InRange r x ∨ p.Covers x
  drops : p.Drops r → p.reservedCount = maxReserved ∧ ∀ j < maxReserved, Apart (p.entry j) r

theorem returns_merged (p : BoardParams) (r : Nat × Nat) :
    Returns (p.merged r) fun m => p.Separate → m.Inv p r ∧ m.params.reservedCount ≤ m.i := by
  refine Returns.loop (fun m => m.params.reservedCount - m.i)
    (fun m (hm : p.Separate → m.Inv p r) => (returns_mergeRound m).mono ?_)
    (fun h => ⟨h, fun x => Iff.rfl, by simp, rfl, Nat.zero_le _, .inl ⟨rfl, rfl⟩⟩) (by simp)
  intro result hresult
  cases result with
  | next t =>
    refine ⟨fun h => (hm h).step hresult, ?_⟩
    -- A round drops a range or goes on to the next one.
    cases hresult with
    | swallow params hlt _ _ hcount _ => simp only [hcount]; omega
    | pass hlt _ => simp only; omega
  | done t =>
    obtain ⟨rfl, hend⟩ := hresult
    exact fun h => ⟨hm h, hend⟩

/-- All stored ranges have been passed when the loop ends. -/
theorem Merging.Inv.stores {p : BoardParams} {r : Nat × Nat} {m : Merging} (h : m.Inv p r)
    (p' : BoardParams) (hend : m.params.reservedCount ≤ m.i) (hcount : p'.reservedCount = m.params.reservedCount + 1)
    (hentry : ∀ j, p'.entry j =
      if j = m.params.reservedCount then (m.addr, m.size) else m.params.entry j) :
    p'.Separate ∧ ∀ x, p'.Covers x ↔ InRange r x ∨ p.Covers x := by
  refine ⟨fun j j' hj hj' hne => ?_, fun x => ?_⟩
  · rw [hcount] at hj hj'
    rw [hentry, hentry]
    split <;> split
    · omega
    · exact fun x hx hx' => h.passed j' (by omega) x hx' hx
    · exact h.passed j (by omega)
    · exact h.separate j j' (by omega) (by omega) hne
  · rw [← h.covers x]
    constructor
    · rintro ⟨j, hj, hx⟩
      rw [hentry] at hx
      split at hx
      · exact .inl hx
      · exact .inr ⟨j, by omega, hx⟩
    · rintro (hx | ⟨j, hj, hx⟩)
      · exact ⟨m.params.reservedCount, by omega, by rwa [hentry, if_pos rfl]⟩
      · exact ⟨j, by omega, by rwa [hentry, if_neg (by omega)]⟩

theorem returns_reserve (p : BoardParams) (r : Nat × Nat) :
    Returns (p.reserve r) fun p' => p.Separate → p.Reserves r p' := by
  refine .ite (fun hempty => .ret fun h => ?_) fun hr => ?_
  · have hno : ¬ (r.1 ≠ 0 ∧ r.2 ≠ 0) := by omega
    exact ⟨h, fun x => by tauto, fun hdrops => absurd ⟨hdrops.1, hdrops.2.1⟩ hno⟩
  rw [not_or] at hr
  obtain ⟨m, hm, hinv⟩ := returns_merged p r
  have hmerged : Returns (p.merged r) (· = m) := ⟨m, hm, rfl⟩
  refine hmerged.bind ?_
  rintro m rfl
  split
  · next hroom =>
    refine (returns_setAt _ _ hroom).bind fun reserved hset => .ret fun h => ?_
    have hkept : ¬ p.Drops r := by
      rintro ⟨-, -, m', hm', hfull⟩
      rw [hm] at hm'
      cases hm'
      omega
    obtain ⟨hseparate, hcovers⟩ := (hinv h).1.stores
      { m.params with reserved, reservedCount := m.params.reservedCount + 1, fits := hroom }
      (hinv h).2 rfl (entry_set hroom hset)
    exact ⟨hseparate, fun x => (hcovers x).trans (by tauto), fun hdrops => absurd hdrops hkept⟩
  · next hfull =>
    refine .ret fun h => ?_
    obtain ⟨hinv, hend⟩ := hinv h
    have hfits := p.fits
    obtain ⟨rfl, rfl⟩ | hless := hinv.fresh
    · have hdrops : m.params.Drops (m.addr, m.size) :=
        ⟨hr.1, hr.2, m, hm, Nat.not_lt.mp hfull⟩
      exact ⟨h, fun x => by tauto, fun _ => ⟨by omega, fun j hj => hinv.passed j (by omega)⟩⟩
    · omega

/-! ## A sequence of calls -/

/-- An address lies in a range that is neither empty nor dropped. -/
def Kept : BoardParams → List (Nat × Nat) → Nat → Prop
  | _, [], _ => False
  | p, r :: rest, x =>
    r.1 ≠ 0 ∧ r.2 ≠ 0 ∧ ¬ p.Drops r ∧ InRange r x ∨ ∃ p', p.reserve r = some p' ∧ p'.Kept rest x

/-- No range of a sequence of calls is dropped. -/
def KeepsAll (p : BoardParams) (calls : List (Nat × Nat)) : Prop :=
  Machine.Each reserve p calls fun p r => ¬ p.Drops r

theorem run_reserve {p : BoardParams} (h : p.Separate) (calls : List (Nat × Nat)) :
    ∃ p', Machine.run reserve p calls = some p' ∧ p'.Separate ∧
      ∀ x, p'.Covers x ↔ p.Kept calls x ∨ p.Covers x := by
  induction calls generalizing p with
  | nil => exact ⟨p, rfl, h, fun x => by simp [Kept]⟩
  | cons r rest ih =>
    obtain ⟨p₁, hp₁, hreserves⟩ := returns_reserve p r
    obtain ⟨hseparate, hcovers, -⟩ := hreserves h
    obtain ⟨p', hrun, hseparate', hcovers'⟩ := ih hseparate
    refine ⟨p', by simp [hp₁, hrun], hseparate', fun x => ?_⟩
    rw [hcovers', hcovers, Kept]
    simp only [hp₁, Option.some.injEq, exists_eq_left']
    tauto

/-- Without drops the addresses are those of the ranges, whatever their order. -/
theorem kept_iff {p : BoardParams} {calls : List (Nat × Nat)} (h : p.KeepsAll calls) (x : Nat) :
    p.Kept calls x ↔ ∃ r ∈ calls, r.1 ≠ 0 ∧ r.2 ≠ 0 ∧ InRange r x := by
  induction calls generalizing p with
  | nil => simp [Kept]
  | cons r rest ih =>
    obtain ⟨p₁, hp₁, -⟩ := returns_reserve p r
    have hfirst : ¬ p.Drops r := h [] r rest p p₁ rfl rfl hp₁
    rw [Kept]
    simp only [List.mem_cons, exists_eq_or_imp, hp₁, Option.some.injEq, exists_eq_left', ih (h.tail hp₁), hfirst, not_false_eq_true,
      true_and]

end BoardParams

open BoardParams in
/-- After every sequence of calls at most eight ranges are stored, apart from each other, with the
addresses of the ranges that were neither empty nor dropped. A range is only dropped when all places
are taken, by ranges that are apart from it, and without drops the order of the calls is irrelevant. -/
theorem reserved_ranges (calls : List (Nat × Nat)) :
    ∃ p, Machine.run reserve .empty calls = some p ∧ p.Separate ∧ p.reservedCount ≤ 8 ∧
      (∀ x, p.Covers x ↔ Kept .empty calls x) ∧
      Machine.Each reserve .empty calls (fun p r => p.Drops r →
        p.reservedCount = 8 ∧ ∀ j < 8, Apart (p.entry j) r) ∧
      ∀ calls' p', calls.Perm calls' → Machine.run reserve .empty calls' = some p' →
        KeepsAll .empty calls → KeepsAll .empty calls' → ∀ x, p.Covers x ↔ p'.Covers x := by
  have hempty : Separate .empty := fun j j' hj => absurd hj (Nat.not_lt_zero j)
  have hnone : ∀ x, ¬ Covers .empty x := fun x ⟨j, hj, _⟩ => absurd hj (Nat.not_lt_zero j)
  obtain ⟨p, hrun, hseparate, hcovers⟩ := run_reserve hempty calls
  refine ⟨p, hrun, hseparate, p.fits, fun x => (hcovers x).trans (or_iff_left (hnone x)), ?_, ?_⟩
  · intro first r rest p₁ p₂ _ hfirst hstep
    obtain ⟨p₁', hrun₁, hseparate₁, -⟩ := run_reserve hempty first
    rw [hfirst] at hrun₁
    cases hrun₁
    obtain ⟨p₂', hp₂, hreserves⟩ := returns_reserve p₁ r
    exact (hreserves hseparate₁).drops
  · intro calls' p' hperm hrun' hkeeps hkeeps' x
    obtain ⟨p'', hrun'', -, hcovers'⟩ := run_reserve hempty calls'
    rw [hrun'] at hrun''
    cases hrun''
    rw [hcovers, hcovers', kept_iff hkeeps, kept_iff hkeeps']
    simp only [hperm.mem_iff]

end Ignium.Kernel
