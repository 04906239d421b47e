import Ignium.Kernel.FdtTokens
import Ignium.Kernel.Reserved
import Mathlib.Data.Nat.Bitwise
import Mathlib.Tactic.Basic

/-!
# Parsing any device tree

`Fdt.new` and `Fdt.parse` return for every memory, whatever the header and the blocks hold: they read
the header and the bytes that it declares and nothing else, no computation overflows, and the loops
end. Each function has one lemma, which says when it returns. The positions of the walk stay in the
structure block up to the padding of the last name (`Walk.Ok`), every round of it goes on by a token,
and a property is only looked at once all of its bytes are in the block.
-/

namespace Ignium.Kernel

open Bytes

/-! ## Reading -/

namespace Blob

variable {b : Blob} {addr pos k start len : Nat}

theorem returns_read (hlow : b.base ≤ addr) (hhigh : addr < b.base + b.size) :
    Returns (b.read addr) fun _ => True := ⟨_, if_pos ⟨hlow, hhigh⟩, trivial⟩

theorem returns_slice (hlow : b.base ≤ start) (hhigh : start + len ≤ b.base + b.size) :
    Returns (b.slice start len) fun _ => True := ⟨_, if_pos ⟨hlow, hhigh⟩, trivial⟩

/-- The number of four bytes is a 32-bit word. -/
theorem be32_lt (b0 b1 b2 b3 : UInt8) :
    b0.toNat <<< 24 ||| b1.toNat <<< 16 ||| b2.toNat <<< 8 ||| b3.toNat < 2 ^ 32 := by
  have h0 := b0.toNat_lt
  have h1 := b1.toNat_lt
  have h2 := b2.toNat_lt
  have h3 := b3.toNat_lt
  refine Nat.or_lt_two_pow (Nat.or_lt_two_pow (Nat.or_lt_two_pow ?_ ?_) ?_) ?_
  all_goals
    try rw [Nat.shiftLeft_eq]
    omega

theorem returns_be32 (hlow : b.base ≤ addr) (hhigh : addr + 4 ≤ b.base + b.size)
    (hword : b.base + b.size < 2 ^ 64) : Returns (b.be32 addr) (· < 2 ^ 32) := by
  refine (returns_read hlow (by omega)).bind fun b0 _ => ?_
  refine bind_checkedAdd (by omega) ?_
  refine (returns_read (by omega) (by omega)).bind fun b1 _ => ?_
  refine bind_checkedAdd (by omega) ?_
  refine (returns_read (by omega) (by omega)).bind fun b2 _ => ?_
  refine bind_checkedAdd (by omega) ?_
  refine (returns_read (by omega) (by omega)).bind fun b3 _ => ?_
  exact .ret (be32_lt b0 b1 b2 b3)

theorem returns_byteAt (hpos : pos < b.size) (hword : b.base + b.size < 2 ^ 64) :
    Returns (b.byteAt pos) (· = b.byte (b.base + pos)) := by
  refine bind_checkedAdd (by omega) ?_
  exact ⟨_, if_pos ⟨by omega, by omega⟩, rfl⟩

theorem returns_word (hpos : pos + k + 4 ≤ b.size) (hword : b.base + b.size < 2 ^ 64) :
    Returns (b.word pos k) (· < 2 ^ 32) := by
  refine bind_checkedAdd (by omega) ?_
  refine bind_checkedAdd (by omega) ?_
  exact returns_be32 (by omega) (by omega) hword

theorem returns_word64 (hpos : pos + k + 8 ≤ b.size) (hword : b.base + b.size < 2 ^ 64) :
    Returns (b.word64 pos k) fun _ => True := by
  refine (returns_word (by omega) hword).bind fun hi _ => ?_
  refine (returns_word (by omega) hword).bind fun lo _ => ?_
  exact .ret trivial

end Blob

/-! ## Properties -/

theorem returns_hexDigit (c : UInt8) : Returns (hexDigit c) fun _ => True := by
  unfold hexDigit
  refine .ite (fun h => ?_) fun _ => .ite (fun h => ?_) fun _ => .ite (fun h => ?_) fun _ => ?_
  · exact bind_checkedSub h.1 (.ret trivial)
  · exact bind_checkedSub h.1 (.ret trivial)
  · exact bind_checkedSub h.1 (.ret trivial)
  · exact .ret trivial

theorem returns_parseHex (s : List UInt8) : Returns (parseHex s) fun _ => True := by
  have hdigits : ∀ (s : List UInt8) (val : Nat), Returns (parseDigits s val) fun _ => True := by
    intro s
    induction s with
    | nil => exact fun val => .ret trivial
    | cons c rest ih =>
      intro val
      refine (returns_hexDigit c).bind fun digit _ => ?_
      cases digit with
      | none => exact .ret trivial
      | some digit =>
        dsimp only
        split
        · exact .ret trivial
        · exact ih _
  exact .ite (fun _ => .ret trivial) fun _ => hdigits s 0

section Props

variable {blob : Blob} (hword : blob.base + blob.size < 2 ^ 64)

include hword

theorem returns_length {start limit : Nat} (hlow : blob.base ≤ start)
    (hhigh : start + limit ≤ blob.base + blob.size) :
    Returns (Round.loop (lengthRound blob start limit) (limit + 1) 0) (· ≤ limit) := by
  refine Returns.loop (fun len => limit - len) (fun len (hlen : len ≤ limit) => ?_)
    (Nat.zero_le _) (by omega)
  refine .ite (fun hlt => ?_) fun _ => .ret hlen
  refine bind_checkedAdd (by omega) ?_
  refine (Blob.returns_read (by omega) (by omega)).bind fun c _ => ?_
  refine .ite (fun _ => .ret hlen) fun _ => ?_
  refine bind_checkedAdd (by omega) ?_
  exact .ret ⟨by omega, by omega⟩

theorem Fdt.returns_readString (self : Fdt) (hsize : blob.size = self.totalSize) (offset : Nat) :
    Returns (self.readString blob offset) fun _ => True := by
  have hstrings := self.stringsIn
  refine .ite (fun _ => .ret trivial) fun hlt => ?_
  refine bind_checkedSub (by omega) ?_
  refine bind_checkedAdd (by omega) ?_
  refine bind_checkedAdd (by omega) ?_
  refine (returns_length hword (by omega) (by omega)).bind fun len hlen => ?_
  refine .ite (fun _ => .ret trivial) fun _ => ?_
  exact (Blob.returns_slice (by omega) (by omega)).bind fun bytes _ => .ret trivial

variable {valStart propLen : Nat} (hval : valStart + propLen ≤ blob.size)

include hval

theorem returns_memoryReg (params : BoardParams) :
    Returns (memoryReg blob valStart propLen params) fun _ => True := by
  refine .ite (fun hlong => ?_) fun _ => .ite (fun hlong => ?_) fun _ => .ret trivial
  · refine (Blob.returns_word64 (by omega) hword).bind fun ramStart _ => ?_
    exact (Blob.returns_word64 (by omega) hword).bind fun ramSize _ => .ret trivial
  · refine (Blob.returns_word (by omega) hword).bind fun ramStart _ => ?_
    exact (Blob.returns_word (by omega) hword).bind fun ramSize _ => .ret trivial

theorem returns_uartCompatible (node : List UInt8) (hnode : node.length < 2 ^ 64)
    (params : BoardParams) :
    Returns (uartCompatible blob node valStart propLen params) fun _ => True := by
  refine bind_checkedAdd (by omega) ?_
  refine (Blob.returns_slice (by omega) (by omega)).bind fun compat _ => ?_
  refine .ite (fun _ => ?_) fun _ => .ret trivial
  split
  next atPos hat =>
    have hlt : atPos < node.length := (List.findIdx?_eq_some_iff_getElem.mp hat).1
    refine bind_checkedAdd (by omega) ?_
    refine .ite (fun _ => ?_) fun hle => absurd hlt hle
    refine (returns_parseHex _).bind fun addr _ => ?_
    cases addr with
    | some addr => exact .ret trivial
    | none => exact .ret trivial
  next => exact .ret trivial

theorem returns_uartReg (params : BoardParams) :
    Returns (uartReg blob valStart propLen params) fun _ => True := by
  refine .ite (fun hlong => ?_) fun _ => .ite (fun hlong => ?_) fun _ => .ret trivial
  · refine (Blob.returns_word64 (by omega) hword).bind fun addr _ => ?_
    exact .ite (fun _ => .ret trivial) fun _ => .ret trivial
  · refine (Blob.returns_word (by omega) hword).bind fun addr _ => ?_
    exact .ite (fun _ => .ret trivial) fun _ => .ret trivial

theorem returns_cpuIsa (params : BoardParams) :
    Returns (cpuIsa blob valStart propLen params) fun _ => True := by
  refine .ite (fun _ => .ret trivial) fun _ => .ite (fun _ => ?_) fun _ => .ret trivial
  refine bind_checkedAdd (by omega) ?_
  refine (returns_length hword (by omega) (by omega)).bind fun len hlen => ?_
  refine .ite (fun _ => ?_) fun _ => .ret trivial
  refine (Blob.returns_slice (by omega) (by omega)).bind fun bytes _ => ?_
  cases String.fromUTF8? ⟨bytes.toArray⟩ with
  | some isaString => exact .ret trivial
  | none => exact .ret trivial

/-- A property whose value lies in the range is taken over. -/
theorem Fdt.returns_handleProp (self : Fdt) (hsize : blob.size = self.totalSize)
    (node : List UInt8) (hnode : node.length < 2 ^ 64) (nameOff : Nat) (params : BoardParams) :
    Returns (self.handleProp blob node nameOff valStart propLen params) fun _ => True := by
  refine (self.returns_readString hword hsize nameOff).bind fun name _ => ?_
  cases name with
  | none => exact .ret trivial
  | some name =>
    have hnumber : 4 ≤ propLen → Returns (blob.word valStart 0) (· < 2 ^ 32) :=
      fun hlong => Blob.returns_word (by omega) hword
    refine .ite (fun _ => returns_memoryReg hword hval params) fun _ => ?_
    refine .ite (fun _ => .ite (fun hlong => ?_) fun _ => .ret trivial) fun _ => ?_
    · exact (hnumber hlong).bind fun timebaseFreq _ => .ret trivial
    refine .ite (fun _ => .ite (fun hlong => ?_) fun _ => .ret trivial) fun _ => ?_
    · exact (hnumber hlong).bind fun uartClock _ => .ret trivial
    refine .ite (fun _ => .ite (fun _ => ?_) fun _ => .ret trivial) fun _ => ?_
    · exact returns_uartCompatible hword hval node hnode params
    refine .ite (fun _ => returns_uartReg hword hval params) fun _ => ?_
    exact .ite (fun _ => returns_cpuIsa hword hval params) fun _ => .ret trivial

end Props

/-! ## The walk -/

/-- What every round of the walk keeps. -/
structure Walk.Ok (structEnd : Nat) (w : Walk) : Prop where
  pos : w.pos ≤ structEnd + 4
  depth : w.depth ≤ w.pos
  nodeLen : w.nodeLen ≤ 63
  stackLen : ∀ len ∈ w.stackLen, len ≤ 63

theorem returns_padded {v : Nat} (h : v + 3 < 2 ^ 64) : Returns (padded v) (· = align4 v) :=
  bind_checkedAdd h (.ret rfl)

theorem align4_bounds (n : Nat) : n ≤ align4 n ∧ align4 n ≤ n + 3 := by
  unfold align4
  omega

/-- A byte of a name is not 0, and the byte behind it is. -/
theorem NameAt.byte_eq_zero_iff {blob : Blob} {pos i : Nat} {name : List UInt8}
    (h : NameAt blob pos name) (hi : i ≤ name.length) :
    blob.byte (blob.base + (pos + i)) = 0 ↔ i = name.length := by
  have hbyte := h.1 i hi
  rw [← Nat.add_assoc]
  constructor
  · intro hzero
    by_contra hne
    rw [List.getElem?_append_left (by omega), hzero] at hbyte
    exact h.2 (List.mem_of_getElem? hbyte)
  · rintro rfl
    rw [List.getElem?_concat_length] at hbyte
    exact (Option.some.inj hbyte).symm

theorem NameAt.take_succ {blob : Blob} {pos i : Nat} {name : List UInt8} (h : NameAt blob pos name)
    (hi : i < name.length) :
    name.take (i + 1) = name.take i ++ [blob.byte (blob.base + (pos + i))] := by
  have hbyte := h.1 i (Nat.le_of_lt hi)
  rw [List.getElem?_append_left hi] at hbyte
  rw [List.take_add_one, hbyte, Nat.add_assoc]
  rfl

section Walk

variable {blob : Blob} {structEnd : Nat} (hword : blob.base + blob.size < 2 ^ 64)
  (hend : structEnd ≤ blob.size)

include hword hend

/-- The first bytes of a name are copied, up to the room that there is for them. -/
theorem returns_name {pos : Nat} (hpos : pos ≤ structEnd) (node : NodeName) :
    Returns (Round.loop (nameRound blob structEnd) 64 (node, 0, pos)) fun s =>
      (s.2.1 ≤ 63 ∧ pos ≤ s.2.2 ∧ s.2.2 ≤ structEnd) ∧
      ∀ name, NameAt blob pos name → pos + name.length < structEnd →
        s.2.1 = min name.length 63 ∧ s.2.2 = pos + s.2.1 ∧ s.1.toList.take s.2.1 = cut name := by
  refine Returns.loop (fun s => 63 - s.2.1)
    (fun s (hs : (s.2.1 ≤ 63 ∧ pos ≤ s.2.2 ∧ s.2.2 ≤ structEnd) ∧
      ∀ name, NameAt blob pos name → pos + name.length < structEnd →
        s.2.1 ≤ name.length ∧ s.2.2 = pos + s.2.1 ∧ s.1.toList.take s.2.1 = name.take s.2.1) => ?_)
    ⟨⟨Nat.zero_le _, Nat.le_refl _, hpos⟩, by simp⟩ (by simp)
  obtain ⟨node, len, at'⟩ := s
  obtain ⟨hs, hread⟩ := hs
  dsimp only at hs hread
  refine .ite (fun hlt => ?_) fun hout => .ret ⟨hs, fun name hname hin => ?_⟩
  · refine (Blob.returns_byteAt (by omega) hword).bind ?_
    rintro _ rfl
    refine .ite (fun hzero => .ret ⟨hs, fun name hname hin => ?_⟩) fun hnonzero => ?_
    · obtain ⟨hlen, rfl, htake⟩ := hread name hname hin
      obtain rfl := (hname.byte_eq_zero_iff hlen).mp hzero
      refine ⟨by dsimp only; omega, rfl, htake.trans ?_⟩
      rw [cut, List.take_of_length_le (Nat.le_refl _), List.take_of_length_le (by omega)]
    refine (returns_setAt node _ (by omega)).bind ?_
    rintro _ rfl
    refine bind_checkedAdd (by omega) (bind_checkedAdd (by omega) (.ret ⟨⟨⟨?_, ?_, ?_⟩, ?_⟩, ?_⟩))
    · dsimp only
      omega
    · dsimp only
      omega
    · dsimp only
      omega
    · intro name hname hin
      obtain ⟨hlen, rfl, htake⟩ := hread name hname hin
      have hless : len < name.length :=
        Nat.lt_of_le_of_ne hlen fun heq => hnonzero ((hname.byte_eq_zero_iff hlen).mpr heq)
      refine ⟨hless, by dsimp only; omega, ?_⟩
      rw [hname.take_succ hless, ← htake, Vector.toList_set, List.take_add_one,
        List.getElem?_set_self (by simp; omega), List.take_set_of_le (Nat.le_refl _)]
      rfl
    · dsimp only
      omega
  · obtain ⟨hlen, rfl, htake⟩ := hread name hname hin
    obtain rfl : len = 63 := by omega
    exact ⟨by dsimp only; omega, rfl, htake⟩

/-- The rest of a long name is skipped, up to the 0 behind it. -/
theorem returns_skip {pos : Nat} (hpos : pos ≤ structEnd) :
    Returns (Round.loop (skipRound blob structEnd) (structEnd + 1) pos) fun p =>
      (pos ≤ p ∧ p ≤ structEnd) ∧ ∀ name start, NameAt blob start name → start ≤ pos →
        pos ≤ start + name.length → start + name.length < structEnd → p = start + name.length + 1 := by
  refine Returns.loop (fun p => structEnd - p)
    (fun p (hp : (pos ≤ p ∧ p ≤ structEnd) ∧ ∀ name start, NameAt blob start name → start ≤ pos →
      pos ≤ start + name.length → start + name.length < structEnd → p ≤ start + name.length) => ?_)
    ⟨⟨Nat.le_refl _, hpos⟩, fun _ _ _ _ h _ => h⟩ (by omega)
  obtain ⟨hp, hread⟩ := hp
  refine .ite (fun hlt => ?_) fun hout => .ret ⟨hp, fun name start hname hlow hhigh hin => ?_⟩
  · refine (Blob.returns_byteAt (by omega) hword).bind ?_
    rintro _ rfl
    refine bind_checkedAdd (by omega) ?_
    have hzero : ∀ name start, NameAt blob start name → start ≤ pos → pos ≤ start + name.length →
        start + name.length < structEnd → (blob.byte (blob.base + p) = 0 ↔ p = start + name.length) := by
      intro name start hname hlow hhigh hin
      have hle := hread name start hname hlow hhigh hin
      have hiff := hname.byte_eq_zero_iff (i := p - start) (by omega)
      rw [show start + (p - start) = p by omega] at hiff
      exact hiff.trans (by omega)
    refine .ite (fun h0 => .ret ⟨⟨by omega, by omega⟩, fun name start hname hlow hhigh hin => ?_⟩)
      fun h0 => .ret ⟨⟨⟨by omega, by omega⟩, fun name start hname hlow hhigh hin => ?_⟩, by omega⟩
    · have heq := (hzero name start hname hlow hhigh hin).mp h0
      omega
    · have hle := hread name start hname hlow hhigh hin
      have hne : p ≠ start + name.length := fun heq => h0 ((hzero name start hname hlow hhigh hin).mpr heq)
      omega
  · have hle := hread name start hname hlow hhigh hin
    omega

theorem returns_nameEnd {pos : Nat} (hpos : pos ≤ structEnd) (hsmall : structEnd + 1 < 2 ^ 64)
    (nodeLen : Nat) :
    Returns (nameEnd blob structEnd nodeLen pos) fun p => (pos ≤ p ∧ p ≤ structEnd + 1) ∧
      ∀ name start, NameAt blob start name → start + name.length < structEnd →
        nodeLen = min name.length 63 → pos = start + nodeLen → p = start + name.length + 1 := by
  refine .ite (fun hlong => ?_) fun hshort => ?_
  · refine (returns_skip hword hend hpos).mono fun p hp => ⟨⟨hp.1.1, by omega⟩, ?_⟩
    intro name start hname hin hlen hat
    exact hp.2 name start hname (by omega) (by omega) hin
  · refine (returns_checkedAdd (by omega)).mono fun p hp => ⟨⟨by omega, by omega⟩, ?_⟩
    intro name start hname hin hlen hat
    omega

omit hword hend in
/-- The name of the current node is kept, unless too many are. -/
theorem Walk.returns_push {w : Walk} (h : w.Ok structEnd) :
    Returns w.push fun t => t.Ok structEnd ∧ t.pos = w.pos ∧ t.depth = w.depth ∧
      t.params = w.params ∧ t.depthExceeded = w.depthExceeded ∧
      ∀ i, t.saved i = if i = w.depth ∧ i < maxDepth then w.name else w.saved i := by
  refine .ite (fun hlt => ?_) fun hge =>
    .ret ⟨h, rfl, rfl, rfl, rfl, fun i => (if_neg (by omega)).symm⟩
  refine (returns_setAt w.stack w.node hlt).bind ?_
  rintro _ rfl
  refine (returns_setAt w.stackLen w.nodeLen hlt).bind ?_
  rintro _ rfl
  refine .ret ⟨⟨h.pos, h.depth, h.nodeLen, fun len hlen => ?_⟩, rfl, rfl, rfl, rfl, fun i => ?_⟩
  · rcases @Vector.mem_or_eq_of_mem_set _ _ _ _ _ _ hlt hlen with hold | rfl
    · exact h.stackLen len hold
    · exact h.nodeLen
  · simp only [Walk.saved, Vector.getElem?_set]
    by_cases hi : w.depth = i
    · subst hi
      simp [hlt, Walk.name]
    · simp [hi, Ne.symm hi]

/-- The name of a node is read up to the end of the block, and the position goes on. -/
theorem Walk.returns_beginNode {w : Walk} (h : w.Ok structEnd) (hpos : w.pos ≤ structEnd)
    (hdepth : w.depth + 1 ≤ w.pos) (hsmall : structEnd + 4 < 2 ^ 64) :
    Returns (w.beginNode blob structEnd) fun t => t.Ok structEnd ∧ w.pos ≤ t.pos ∧
      t.params = w.params ∧ ∀ name, NameAt blob w.pos name → w.pos + name.length < structEnd →
        t.pos = align4 (w.pos + name.length + 1) ∧
        ∀ opened begun, w.Tracks opened begun → t.Tracks (name :: opened) name := by
  refine (Walk.returns_push h).bind fun w' ⟨hok, hpos', hdepth', hparams, hexceeded, hsaved⟩ => ?_
  rw [← hpos'] at hpos ⊢
  refine bind_checkedAdd (by omega) ?_
  refine (returns_name hword hend hpos w'.node).bind fun ⟨node, nodeLen, pos⟩ ⟨hbounds, hname⟩ => ?_
  dsimp only at hbounds hname ⊢
  refine (returns_setAt node 0 (by omega)).bind ?_
  rintro _ rfl
  refine (returns_nameEnd hword hend hbounds.2.2 (by omega) nodeLen).bind fun pos' ⟨hpos'', hstop⟩ => ?_
  have halign := align4_bounds pos'
  refine (returns_padded (by omega)).bind ?_
  rintro _ rfl
  refine .ret ⟨⟨by dsimp only; omega, by dsimp only; omega, hbounds.1, hok.stackLen⟩,
    by dsimp only; omega, hparams, fun name hat hin => ?_⟩
  obtain ⟨hlen, hat', htake⟩ := hname name hat hin
  refine ⟨by rw [hstop name w'.pos hat hin hlen hat'], fun opened begun htracks => ?_⟩
  refine htracks.beginNode (by rw [← hdepth']) (by rw [← hdepth', ← hexceeded]) ?_ hsaved
  rw [← htake]
  simp [Walk.name, Vector.toList_set, List.take_set_of_le]

omit hword hend in
theorem Walk.returns_endNode {w : Walk} (h : w.Ok structEnd) :
    Returns w.endNode fun t => t.Ok structEnd ∧ t.pos = w.pos ∧ t.params = w.params ∧
      ∀ opened begun, w.Tracks opened begun → opened ≠ [] → t.Tracks opened.tail begun := by
  have hdepth : w.depth - 1 ≤ w.pos := Nat.le_trans (Nat.sub_le _ _) h.depth
  refine .ite (fun hlt => ?_) fun hge => .ret ⟨⟨h.pos, hdepth, h.nodeLen, h.stackLen⟩, rfl, rfl,
    fun opened begun htracks hne => htracks.endNode hne rfl rfl (if_neg hge).symm rfl⟩
  refine (returns_getElem w.stack hlt).bind fun node hnode => ?_
  refine (returns_getElem w.stackLen hlt).bind fun nodeLen hlen => ?_
  refine .ret ⟨⟨h.pos, hdepth, h.stackLen nodeLen (Vector.mem_of_getElem? hlen), h.stackLen⟩, rfl, rfl,
    fun opened begun htracks hne => htracks.endNode hne rfl rfl ?_ rfl⟩
  rw [if_pos hlt]
  simp only [Walk.saved, hnode, hlen, Option.getD_some]
  rfl

/-- All of a property lies in the block before it is looked at. -/
theorem Walk.returns_prop (self : Fdt) (hsize : blob.size = self.totalSize) {w : Walk}
    (h : w.Ok structEnd) (hsmall : structEnd + 12 < 2 ^ 64) :
    Returns (w.prop self blob structEnd) (Round.Meets
      (fun t => t.Ok structEnd ∧ w.pos ≤ t.pos ∧
        Handled self blob (w.propCall blob structEnd) w.params t.params ∧
        ∃ propLen, blob.word w.pos 0 = some propLen ∧
          t = { w with pos := w.pos + 8 + align4 propLen, params := t.params })
      fun r => r = w.params ∧ w.propCall blob structEnd = none ∧
        ∀ propLen, blob.word w.pos 0 = some propLen → structEnd < w.pos + 8 + align4 propLen) := by
  have hbound := h.pos
  have hdepth := h.depth
  refine bind_checkedAdd (by omega) ?_
  refine .ite (fun hout => .ret ⟨rfl, if_neg (by omega), fun _ _ => by omega⟩) fun hfits => ?_
  refine .ite (fun hmatch => ?_) fun hskip => ?_
  · refine (Blob.returns_word (by omega) hword).self.bind fun propLen ⟨hread, hlen⟩ => ?_
    refine (Blob.returns_word (by omega) hword).self.bind fun nameOff ⟨hread', _⟩ => ?_
    have halign := align4_bounds propLen
    have hcall : w.propCall blob structEnd = if w.pos + 8 + align4 propLen ≤ structEnd then
        some ⟨w.name, nameOff, w.pos + 8, propLen⟩ else none := by
      rw [Walk.propCall, if_pos ⟨by omega, hmatch⟩, hread, hread']
      rfl
    refine bind_checkedAdd (by omega) ?_
    refine (returns_padded (by omega)).bind ?_
    rintro _ rfl
    refine .ite (fun hout => .ret ⟨rfl, ?_⟩) fun hin => ?_
    · have hout := lt_of_exceeds (by omega) hout
      refine ⟨hcall.trans (if_neg (by omega)), fun propLen' hread' => ?_⟩
      rw [hread] at hread'
      cases hread'
      exact hout
    have hin := le_of_not_exceeds (Bool.eq_false_of_not_eq_true hin)
    rw [if_pos hin] at hcall
    refine bind_checkedAdd (by omega) ?_
    refine .ite (fun _ => ?_) fun hlong => absurd h.nodeLen (by omega)
    have hnode : (w.node.toList.take w.nodeLen).length < 2 ^ 64 := by
      rw [List.length_take, Vector.length_toList]
      omega
    refine (self.returns_handleProp hword (by omega) hsize _ hnode nameOff w.params).self.bind
      fun params ⟨hparams, _⟩ => .ret ⟨⟨?_, ?_, h.nodeLen, h.stackLen⟩, ?_, ?_, propLen, hread, rfl⟩
    · dsimp only
      omega
    · dsimp only
      omega
    · dsimp only
      omega
    · rw [hcall]
      exact hparams
  · refine (Blob.returns_word (by omega) hword).self.bind fun propLen ⟨hread, hlen⟩ => ?_
    have halign := align4_bounds propLen
    have hcall : w.propCall blob structEnd = none := if_neg fun hmatch => hskip hmatch.2
    refine bind_checkedAdd (by omega) ?_
    refine (returns_padded (by omega)).bind ?_
    rintro _ rfl
    refine .ite (fun hout => .ret ⟨rfl, hcall, fun propLen' hread' => ?_⟩) fun hin => ?_
    · rw [hread] at hread'
      cases hread'
      exact lt_of_exceeds (by omega) hout
    have hin := le_of_not_exceeds (Bool.eq_false_of_not_eq_true hin)
    refine bind_checkedAdd (by omega) (.ret ⟨⟨?_, ?_, h.nodeLen, h.stackLen⟩, ?_, ?_, propLen, hread, rfl⟩)
    · dsimp only
      omega
    · dsimp only
      omega
    · dsimp only
      omega
    · rw [hcall]
      rfl

/-- A round reads a token, and it keeps `Walk.Ok`. -/
theorem Walk.returns_round (self : Fdt) (hsize : blob.size = self.totalSize)
    (hsmall : structEnd + 12 < 2 ^ 64) {w : Walk} (h : w.Ok structEnd) :
    Returns (w.round self blob structEnd) (Round.Meets
      (fun t => (t.Ok structEnd ∧ structEnd - t.pos < structEnd - w.pos) ∧
        Handled self blob (w.call blob structEnd) w.params t.params ∧
        ∀ tok : Token, tok.Fits blob structEnd w.pos → w.Follows tok t)
      fun r => r = w.params ∧ w.call blob structEnd = none ∧
        ∀ tok : Token, ¬ tok.Fits blob structEnd w.pos) := by
  have hbound := h.pos
  have hdepth := h.depth
  have hcall : blob.word w.pos 0 ≠ some fdtProp → w.call blob structEnd = none :=
    fun hne => if_neg fun hprop => hne hprop.2
  refine bind_checkedAdd (by omega) ?_
  refine .ite (fun hin => ?_) fun hout => .ret ⟨rfl, if_neg fun hprop => hout hprop.1, fun tok hfits => ?_⟩
  · refine (Blob.returns_word (by omega) hword).self.bind fun token ⟨htoken, _⟩ => ?_
    refine bind_checkedAdd (by omega) ?_
    rw [htoken] at hcall
    have hok : Walk.Ok structEnd { w with pos := w.pos + 4 } :=
      ⟨by dsimp only; omega, by dsimp only; omega, h.nodeLen, h.stackLen⟩
    have hnext : ∀ t : Walk, w.pos + 4 ≤ t.pos → structEnd - t.pos < structEnd - w.pos :=
      fun t ht => by omega
    -- A token that fits has the number that has been read.
    have hcode : ∀ tok : Token, tok.Fits blob structEnd w.pos → tok.code = token := by
      intro tok hfits
      have hread := hfits.code
      rw [htoken] at hread
      exact (Option.some.inj hread).symm
    refine .ite (fun hbegin => ?_) fun hbegin => .ite (fun hend' => ?_) fun hend' =>
      .ite (fun hprop => ?_) fun hprop => .ite (fun hnop => ?_) fun hnop => ?_
    · refine (Walk.returns_beginNode hword hend hok hin (by dsimp only; omega) (by omega)).bind
        fun t ⟨hok', hpos', hparams, hname⟩ => .ret ⟨⟨hok', hnext t hpos'⟩, ?_, fun tok hfits => ?_⟩
      · rw [hcall (by simp [hbegin, fdtBeginNode, fdtProp])]
        exact hparams
      · have hnumber := hcode tok hfits
        cases tok with
        | beginNode name =>
          have haligned := hfits.aligned
          have hinside := hfits.inside
          simp only [Token.size] at hinside
          have halign := align4_bounds (name.length + 1)
          obtain ⟨hpos'', htracks⟩ := hname name hfits.holds (by dsimp only; omega)
          refine ⟨hpos''.trans ?_, fun opened begun h _ => htracks opened begun (h.congr rfl rfl rfl rfl)⟩
          simp only [Token.size, align4]
          omega
        | _ => simp [hbegin, Token.code, fdtBeginNode, fdtEndNode, fdtProp, fdtNop] at hnumber
    · refine (Walk.returns_endNode hok).bind fun t ⟨hok', hpos', hparams, htracks⟩ =>
        .ret ⟨⟨hok', hnext t (Nat.le_of_eq hpos'.symm)⟩, ?_, fun tok hfits => ?_⟩
      · rw [hcall (by simp [hend', fdtEndNode, fdtProp])]
        exact hparams
      · have hnumber := hcode tok hfits
        cases tok with
        | endNode =>
          exact ⟨hpos', fun opened begun h hne =>
            htracks opened begun (h.congr rfl rfl rfl rfl) (hne rfl)⟩
        | _ => simp [hend', Token.code, fdtBeginNode, fdtEndNode, fdtProp, fdtNop] at hnumber
    · have hcall : w.call blob structEnd = Walk.propCall blob structEnd { w with pos := w.pos + 4 } :=
        if_pos ⟨hin, by rw [htoken, hprop]⟩
      rw [hcall]
      refine (Walk.returns_prop hword hend self hsize hok hsmall).mono fun r hr => ?_
      cases r with
      | next t =>
        obtain ⟨hok', hpos', hhandled, propLen, hread, ht⟩ := hr
        refine ⟨⟨hok', hnext t hpos'⟩, hhandled, fun tok hfits => ?_⟩
        have hnumber := hcode tok hfits
        cases tok with
        | prop nameOff value =>
          have hlen := hfits.holds.1
          rw [hread] at hlen
          cases hlen
          refine ⟨by rw [ht]; simp only [Token.size]; omega, fun opened begun h _ => ?_⟩
          rw [ht]
          exact h.congr rfl rfl rfl rfl
        | _ => simp [hprop, Token.code, fdtBeginNode, fdtEndNode, fdtProp, fdtNop] at hnumber
      | done r =>
        obtain ⟨rfl, hnone, hlong⟩ := hr
        refine ⟨rfl, hnone, fun tok hfits => ?_⟩
        have hnumber := hcode tok hfits
        cases tok with
        | prop nameOff value =>
          have hinside := hfits.inside
          have := hlong _ hfits.holds.1
          simp only [Token.size] at hinside
          dsimp only at this
          omega
        | _ => simp [hprop, Token.code, fdtBeginNode, fdtEndNode, fdtProp, fdtNop] at hnumber
    · refine .ret ⟨⟨hok, hnext _ (Nat.le_refl _)⟩, ?_, fun tok hfits => ?_⟩
      · rw [hcall (by simp [hnop, fdtNop, fdtProp])]
        rfl
      · have hnumber := hcode tok hfits
        cases tok with
        | nop => exact ⟨rfl, fun opened begun h _ => h.congr rfl rfl rfl rfl⟩
        | _ => simp [hnop, Token.code, fdtBeginNode, fdtEndNode, fdtProp, fdtNop] at hnumber
    · refine .ret ⟨rfl, hcall (by simpa using hprop), fun tok hfits => ?_⟩
      have hnumber := hcode tok hfits
      cases tok <;> simp_all [Token.code]
  · have hinside := hfits.inside
    have hsize : 4 ≤ tok.size := by cases tok <;> simp [Token.size]; omega
    omega

end Walk

/-! ## The device tree -/

namespace Fdt

theorem returns_rsvmap (self : Fdt) {blob : Blob} (hword : blob.base + blob.size < 2 ^ 64)
    (hsize : blob.size = self.totalSize) (params : BoardParams) (off : Nat) :
    Returns (Round.loop (self.rsvmapRound blob) (self.totalSize + 1) (params, off))
      fun _ => True := by
  refine Returns.loop (fun s => self.totalSize - s.2) (fun s (_ : True) => ?_) trivial (by dsimp only; omega)
  obtain ⟨params, off⟩ := s
  refine .ite (fun _ => .ret trivial) fun hin => ?_
  have hin := le_of_not_exceeds (Bool.eq_false_of_not_eq_true hin)
  refine (Blob.returns_word64 (by omega) hword).bind fun addr _ => ?_
  refine (Blob.returns_word64 (by omega) hword).bind fun size _ => ?_
  refine bind_checkedAdd (by omega) ?_
  refine .ite (fun _ => .ret trivial) fun _ => ?_
  refine (params.returns_reserve (addr, size)).bind fun params _ => .ret ⟨trivial, ?_⟩
  dsimp only
  omega

/-- The memory that is parsed. -/
def blob (self : Fdt) (byte : Nat → UInt8) : Blob := ⟨byte, self.base, self.totalSize⟩

/-- The end of the structure block. -/
def structStop (self : Fdt) : Nat := self.offStruct + self.sizeStruct

/-- The parameters before the walk, with the reserved ranges. -/
def reservedParams (self : Fdt) (byte : Nat → UInt8) : Option BoardParams := do
  let params ← BoardParams.empty.addReserved self.fdtAddr self.totalSize
  Round.loop (self.rsvmapRound (self.blob byte)) (self.totalSize + 1) (params, self.offRsvmap)

/-- The walk before the first token. -/
def walk (self : Fdt) (params : BoardParams) : Walk :=
  ⟨params, self.offStruct, .replicate _ 0, 0, .replicate _ (.replicate _ 0), .replicate _ 0, 0, false⟩

theorem parse_eq (self : Fdt) (byte : Nat → UInt8) : self.parse byte =
    (self.reservedParams byte).bind fun params =>
      Round.loop (Walk.round self (self.blob byte) self.structStop) (self.structStop + 1)
        (self.walk params) := by
  have hsmall := self.small
  have hstruct := self.structIn
  have hend : min (saturatingAdd self.offStruct self.sizeStruct) self.totalSize = self.structStop := by
    unfold saturatingAdd structStop
    omega
  rw [parse, hend, reservedParams, Option.bind_eq_bind, Option.bind_assoc]
  rfl

theorem word_blob (self : Fdt) (byte : Nat → UInt8) :
    (self.blob byte).base + (self.blob byte).size < 2 ^ 64 := by
  have hbounded : self.base + self.totalSize ≤ maxPhys := self.bounded
  have hphys : maxPhys < 2 ^ 64 := by decide
  exact Nat.lt_of_le_of_lt hbounded hphys

theorem returns_reservedParams (self : Fdt) (byte : Nat → UInt8) :
    Returns (self.reservedParams byte) fun _ => True :=
  (BoardParams.returns_reserve _ (_, _)).bind fun params _ =>
    self.returns_rsvmap (self.word_blob byte) rfl params _

theorem ok_walk (self : Fdt) (params : BoardParams) : (self.walk params).Ok self.structStop := by
  refine ⟨?_, Nat.zero_le _, Nat.zero_le _, fun len hlen => ?_⟩
  · simp only [walk, structStop]
    omega
  · rw [(Vector.mem_replicate.mp hlen).2]
    exact Nat.zero_le _

theorem structStop_lt (self : Fdt) : self.structStop + 12 < 2 ^ 64 := by
  have hstruct := self.structIn
  have hsmall := self.small
  unfold structStop
  omega

theorem structStop_le (self : Fdt) (byte : Nat → UInt8) : self.structStop ≤ (self.blob byte).size :=
  self.structIn

theorem returns_parse (self : Fdt) (byte : Nat → UInt8) :
    Returns (self.parse byte) fun _ => True := by
  rw [parse_eq]
  refine (self.returns_reservedParams byte).bind fun params _ => ?_
  refine Returns.loop (fun w => self.structStop - w.pos)
    (fun w hw => (Walk.returns_round (self.word_blob byte) (self.structStop_le byte) self rfl
      self.structStop_lt hw).mono fun r hr => ?_) (self.ok_walk params) (by omega)
  cases r with
  | next t => exact hr.1
  | done r => trivial

/-- Whatever the memory holds, reading the header returns after reading nothing but the 40 bytes of the
header; if it accepts it, the device tree has the size that the header declares, which is at most
16 MB, and parsing it returns after reading nothing outside of these bytes. -/
theorem new_parse_returns (byte : Nat → UInt8) (base : Nat) :
    ∃ result, Fdt.new byte base = some result ∧ ∀ fdt, result = some fdt →
      fdt.base = base ∧ (⟨byte, base, fdtHeaderSize⟩ : Blob).word 0 4 = some fdt.totalSize ∧
      fdt.totalSize ≤ 16 * 1024 * 1024 ∧ ∃ params, fdt.parse byte = some params := by
  suffices hnew : Returns (Fdt.new byte base) fun result => ∀ fdt, result = some fdt →
      fdt.base = base ∧ (⟨byte, base, fdtHeaderSize⟩ : Blob).word 0 4 = some fdt.totalSize by
    obtain ⟨result, hresult, hheader⟩ := hnew
    refine ⟨result, hresult, fun fdt hfdt => ?_⟩
    obtain ⟨params, hparams, -⟩ := fdt.returns_parse byte
    obtain ⟨hbase, htotal⟩ := hheader fdt hfdt
    exact ⟨hbase, htotal, fdt.small, params, hparams⟩
  refine .ite (fun _ => .ret nofun) fun _ => .ite (fun _ => .ret nofun) fun hin => ?_
  have hin := le_of_not_exceeds (Bool.eq_false_of_not_eq_true hin)
  have hphys : maxPhys < 2 ^ 64 := by decide
  have hword : base + fdtHeaderSize < 2 ^ 64 := by omega
  have hfield : ∀ k, k ≤ 36 → Returns ((⟨byte, base, fdtHeaderSize⟩ : Blob).word 0 k)
      ((⟨byte, base, fdtHeaderSize⟩ : Blob).word 0 k = some ·) := fun k hk => by
    obtain ⟨v, hv, -⟩ := @Blob.returns_word ⟨byte, base, fdtHeaderSize⟩ 0 k
      (by simp only [fdtHeaderSize]; omega) hword
    exact ⟨v, hv, hv⟩
  refine (Blob.returns_be32 (Nat.le_refl _) (by simp only [fdtHeaderSize]; omega) hword).bind
    fun magic _ => ?_
  refine .ite (fun _ => .ret nofun) fun _ => ?_
  refine (hfield 4 (by omega)).bind fun total htotal => ?_
  refine (hfield 8 (by omega)).bind fun offStruct _ => ?_
  refine (hfield 12 (by omega)).bind fun offStrings _ => ?_
  refine (hfield 16 (by omega)).bind fun offRsvmap _ => ?_
  refine (hfield 36 (by omega)).bind fun sizeStruct _ => ?_
  refine (hfield 32 (by omega)).bind fun sizeStrings _ => ?_
  split
  · exact .ret nofun
  split
  · exact .ret nofun
  refine .ret ?_
  rintro fdt ⟨⟩
  exact ⟨rfl, htotal⟩

end Fdt

end Ignium.Kernel
