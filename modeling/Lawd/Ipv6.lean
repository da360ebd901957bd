import Lawd.IpAddress
import Lawd.Library.Pieces
import Mathlib.Tactic.IntervalCases

/-!
# The language of IPv6 addresses

The texts of `IPv6address` in terms of groups and of what the two colons stand
for. The rule and the one it was rewritten from have the same texts, and each is
read to its end.
-/
namespace Lawd

open Library Library.Peg

/-- One to four hexadecimal digits. -/
def IsGroup (t : List UInt8) : Prop := 1 ≤ t.length ∧ t.length ≤ 4 ∧ ∀ b ∈ t, isXdigit b = true

/-- The decimal digits of a number. -/
def decimal (n : ℕ) : List UInt8 := (Nat.toDigits 10 n).map Char.toUInt8

/-- A number below 256, without zeros in front. -/
def IsOctet (t : List UInt8) : Prop := ∃ n < 256, t = decimal n

/-- Four numbers with dots between them. -/
def IsIpv4 (t : List UInt8) : Prop := ∃ a b c d, IsOctet a ∧ IsOctet b ∧ IsOctet c ∧ IsOctet d ∧
  t = ['.'.toUInt8].intercalate [a, b, c, d]

/-- Groups with colons between them. -/
def PlainGroups (n : ℕ) (t : List UInt8) : Prop := ∃ gs : List (List UInt8), gs.length = n ∧
  (∀ g ∈ gs, IsGroup g) ∧ t = [':'.toUInt8].intercalate gs

/-- Groups of which the last two may be written as an IPv4 address. -/
def TailGroups (n : ℕ) (t : List UInt8) : Prop :=
  PlainGroups n t ∨ ∃ (gs : List (List UInt8)) (v4 : List UInt8), gs.length + 2 = n ∧
    (∀ g ∈ gs, IsGroup g) ∧ IsIpv4 v4 ∧ t = [':'.toUInt8].intercalate (gs ++ [v4])

/-- Eight groups, or two colons in the place of at least one group. -/
def IsIpv6 (t : List UInt8) : Prop :=
  TailGroups 8 t ∨ ∃ m n p q, m + n ≤ 7 ∧ PlainGroups m p ∧ TailGroups n q ∧
    t = p ++ ':'.toUInt8 :: ':'.toUInt8 :: q

/-! ### Octets -/

/-- The digit of a number below 10. -/
def digitByte (i : Fin 10) : UInt8 := UInt8.ofNat (0x30 + i)

theorem isDigit_iff {b : UInt8} : isDigit b = true ↔ ∃ i, b = digitByte i := by
  constructor
  · intro h
    simp only [isDigit, Bool.and_eq_true, decide_eq_true_eq] at h
    have hlo : 0x30 ≤ b.toNat := h.1
    have hhi : b.toNat ≤ 0x39 := h.2
    refine ⟨⟨b.toNat - 0x30, by omega⟩, ?_⟩
    rw [digitByte, Nat.add_sub_cancel' hlo, UInt8.ofNat_toNat]
  · rintro ⟨i, rfl⟩
    revert i
    decide

namespace UriPar

variable {t : List UInt8}

@[simp] theorem generates_ch {c : Char} : Generates (ch c) t ↔ t = [c.toUInt8] := by
  rw [ch, sym, generates_set]
  simp

theorem generates_digit : Generates digit t ↔ ∃ i, t = [digitByte i] := by
  rw [digit, generates_set]
  simp only [isDigit_iff]
  constructor
  · rintro ⟨_, ⟨i, rfl⟩, rfl⟩
    exact ⟨i, rfl⟩
  · rintro ⟨i, rfl⟩
    exact ⟨_, ⟨i, rfl⟩, rfl⟩

theorem isOctet_one (i : Fin 10) : IsOctet [digitByte i] := by
  refine ⟨i, by omega, ?_⟩
  revert i
  decide

theorem isOctet_two {i : Fin 10} (hi : i ≠ 0) (j : Fin 10) :
    IsOctet [digitByte i, digitByte j] := by
  refine ⟨10 * i + j, by omega, ?_⟩
  revert i j
  decide

theorem isOctet_three {i j k : Fin 10} (hi : i ≠ 0) (h : 100 * i.val + 10 * j.val + k.val < 256) :
    IsOctet [digitByte i, digitByte j, digitByte k] := by
  refine ⟨_, h, ?_⟩
  revert i j k
  decide

theorem generates_oneToNine : Generates oneToNine t ↔ ∃ i, i ≠ 0 ∧ t = [digitByte i] := by
  rw [oneToNine, generates_set]
  simp only [Bool.and_eq_true, isDigit_iff]
  constructor
  · rintro ⟨_, ⟨⟨i, rfl⟩, hne⟩, rfl⟩
    refine ⟨i, ?_, rfl⟩
    rintro rfl
    cases hne
  · rintro ⟨i, hne, rfl⟩
    refine ⟨_, ⟨⟨i, rfl⟩, ?_⟩, rfl⟩
    revert i
    decide

theorem digit_of_oneOf {cs : List Char} {b : UInt8} {k : ℕ} (h : oneOf cs b = true)
    (hcs : cs.all (fun c => decide (∃ i : Fin 10, i.val ≤ k ∧ c.toUInt8 = digitByte i)) = true) :
    ∃ i : Fin 10, i.val ≤ k ∧ b = digitByte i := by
  obtain ⟨c, hc, heq⟩ := List.any_eq_true.mp h
  rw [← beq_iff_eq.mp heq]
  simpa using List.all_eq_true.mp hcs c hc

theorem parse_decimal : ∀ n < 256,
    (parse decOctet (decimal n)).any (fun out => out.2.isEmpty) = true := by
  decide +kernel

@[simp] theorem generates_decOctet : Generates decOctet t ↔ IsOctet t := by
  constructor
  · intro h
    simp only [decOctet, alts, seqs, List.foldl, generates_alt, generates_seq, generates_ch,
      generates_digit, generates_oneToNine] at h
    obtain (((h | h) | h) | h) | h := h
    · obtain ⟨_, _, ⟨_, _, rfl, rfl, rfl⟩, hlast, rfl⟩ := h
      obtain ⟨b, hb, rfl⟩ := generates_set.mp hlast
      obtain ⟨i, hi, rfl⟩ := digit_of_oneOf (k := 5) hb (by decide)
      exact isOctet_three (i := 2) (j := 5) (by decide) (by simp; omega)
    · obtain ⟨_, _, ⟨_, _, rfl, hsecond, rfl⟩, ⟨j, rfl⟩, rfl⟩ := h
      obtain ⟨b, hb, rfl⟩ := generates_set.mp hsecond
      obtain ⟨i, hi, rfl⟩ := digit_of_oneOf (k := 4) hb (by decide)
      exact isOctet_three (i := 2) (by decide) (by simp; omega)
    · obtain ⟨_, u, rfl, htwo, rfl⟩ := h
      have hdigit : ∀ u, Generates digit u ↔ ∃ i, True ∧ u = [digitByte i] := by
        simpa using fun u => generates_digit (t := u)
      obtain ⟨is, hlo, hhi, -, rfl⟩ := (generates_rep_of_iff hdigit).mp htwo
      obtain ⟨i, j, rfl⟩ := List.length_eq_two.mp (Nat.le_antisymm hhi hlo)
      exact isOctet_three (i := 1) (by decide) (by simp; omega)
    · obtain ⟨_, _, ⟨i, hi, rfl⟩, ⟨j, rfl⟩, rfl⟩ := h
      exact isOctet_two hi j
    · obtain ⟨i, rfl⟩ := h
      exact isOctet_one i
  · rintro ⟨n, hn, rfl⟩
    obtain ⟨⟨vs, r⟩, hp, hr⟩ := (Option.any_eq_true _ _).mp (parse_decimal n hn)
    obtain rfl := List.isEmpty_iff.mp hr
    exact ⟨vs, derives_of_full hp⟩

@[simp] theorem generates_ipv4address : Generates ipv4address t ↔ IsIpv4 t := by
  simp only [ipv4address, seqs, List.foldl, generates_seq, generates_ch, generates_decOctet]
  constructor
  · rintro ⟨_, d, ⟨_, _, ⟨_, c, ⟨_, _, ⟨_, b, ⟨a, _, ha, rfl, rfl⟩, hb, rfl⟩, rfl, rfl⟩, hc, rfl⟩,
      rfl, rfl⟩, hd, rfl⟩
    exact ⟨a, b, c, d, ha, hb, hc, hd, by simp⟩
  · rintro ⟨a, b, c, d, ha, hb, hc, hd, rfl⟩
    exact ⟨_, d, ⟨_, _, ⟨_, c, ⟨_, _, ⟨_, b, ⟨a, _, ha, rfl, rfl⟩, hb, rfl⟩, rfl, rfl⟩, hc, rfl⟩,
      rfl, rfl⟩, hd, by simp⟩

/-! ### Groups -/

@[simp] theorem generates_h16 : Generates h16 t ↔ IsGroup t := by
  simp only [Generates, h16, hexdig, derives_rep_set, IsGroup, exists_eq_left]

theorem generates_h16Colon : Generates h16Colon t ↔ ∃ g, IsGroup g ∧ t = g ++ [':'.toUInt8] := by
  simp only [h16Colon, colon, generates_seq, generates_h16, generates_ch]
  constructor
  · rintro ⟨g, _, hg, rfl, rfl⟩
    exact ⟨g, hg, rfl⟩
  · rintro ⟨g, hg, rfl⟩
    exact ⟨g, _, hg, rfl, rfl⟩

theorem generates_colonH16 : Generates colonH16 t ↔ ∃ g, IsGroup g ∧ t = ':'.toUInt8 :: g := by
  simp only [colonH16, colon, generates_seq, generates_h16, generates_ch]
  constructor
  · rintro ⟨_, g, rfl, hg, rfl⟩
    exact ⟨g, hg, rfl⟩
  · rintro ⟨g, hg, rfl⟩
    exact ⟨_, g, rfl, hg, rfl⟩

/-- What may stand in front of the two colons: up to `n + 1` groups. -/
theorem generates_h16UpTo {n : ℕ} :
    Generates (h16UpTo n) t ↔ ∃ m ≤ n + 1, PlainGroups m t := by
  rw [h16UpTo, generates_opt]
  simp only [generates_seq, generates_h16, generates_rep_of_iff fun _ => generates_colonH16]
  constructor
  · rintro (rfl | ⟨g, _, hg, ⟨gs, -, hlen, hgs, rfl⟩, rfl⟩)
    · exact ⟨0, Nat.zero_le _, [], rfl, by simp, rfl⟩
    · refine ⟨_, Nat.succ_le_succ hlen, g :: gs, rfl, List.forall_mem_cons.mpr ⟨hg, hgs⟩, ?_⟩
      rw [intercalate_cons, led]
  · rintro ⟨_, hm, gs, rfl, hgs, rfl⟩
    cases gs with
    | nil => exact .inl rfl
    | cons g gs =>
      obtain ⟨hg, hgs⟩ := List.forall_mem_cons.mp hgs
      refine .inr ⟨g, _, hg, ⟨gs, Nat.zero_le _, Nat.le_of_succ_le_succ hm, hgs, rfl⟩, ?_⟩
      rw [intercalate_cons, led]

theorem generates_groupsUpTo {n : ℕ} :
    Generates (.rep 0 1 (.seq (.rep 0 n h16Colon) h16)) t ↔ ∃ m ≤ n + 1, PlainGroups m t := by
  rw [generates_opt]
  simp only [generates_seq, generates_h16, generates_rep_of_iff fun _ => generates_h16Colon]
  constructor
  · rintro (rfl | ⟨_, g, ⟨gs, -, hlen, hgs, rfl⟩, hg, rfl⟩)
    · exact ⟨0, Nat.zero_le _, [], rfl, by simp, rfl⟩
    · refine ⟨_, ?_, gs ++ [g], rfl, List.forall_mem_append.mpr ⟨hgs, by simpa using hg⟩, ?_⟩
      · rw [List.length_append]
        exact Nat.succ_le_succ hlen
      · rw [intercalate_append _ _ (List.cons_ne_nil g []), List.intercalate_singleton]
  · rintro ⟨_, hm, gs, rfl, hgs, rfl⟩
    obtain rfl | ⟨gs, g, rfl⟩ := List.eq_nil_or_concat gs
    · exact .inl rfl
    · rw [List.concat_eq_append] at *
      rw [List.length_append] at hm
      obtain ⟨hgs, hg⟩ := List.forall_mem_append.mp hgs
      refine .inr ⟨_, g, ⟨gs, Nat.zero_le _, Nat.le_of_succ_le_succ hm, hgs, rfl⟩,
        by simpa using hg, ?_⟩
      rw [intercalate_append _ _ (List.cons_ne_nil g []), List.intercalate_singleton]

theorem generates_optH16 : Generates (.rep 0 1 h16) t ↔ ∃ m ≤ 1, PlainGroups m t := by
  rw [generates_opt, generates_h16]
  constructor
  · rintro (rfl | hg)
    · exact ⟨0, Nat.zero_le _, [], rfl, by simp, rfl⟩
    · exact ⟨1, le_rfl, [t], rfl, by simpa using hg, by simp⟩
  · rintro ⟨_, hm, gs, rfl, hgs, rfl⟩
    match gs with
    | [] => exact .inl rfl
    | [g] => exact .inr (by simpa using hgs)
    | _ :: _ :: _ => simp at hm

@[simp] theorem generates_ls32 : Generates ls32 t ↔ TailGroups 2 t := by
  simp only [ls32, seqs, List.foldl, colon, generates_alt, generates_seq, generates_h16,
    generates_ch, generates_ipv4address]
  constructor
  · rintro (⟨_, b, ⟨a, _, ha, rfl, rfl⟩, hb, rfl⟩ | hv4)
    · exact .inl ⟨[a, b], rfl, by simp [ha, hb], by simp⟩
    · exact .inr ⟨[], t, rfl, by simp, hv4, by simp⟩
  · rintro (⟨gs, hlen, hgs, rfl⟩ | ⟨gs, v4, hlen, -, hv4, rfl⟩)
    · obtain ⟨a, b, rfl⟩ := List.length_eq_two.mp hlen
      simp only [List.forall_mem_cons] at hgs
      exact .inl ⟨_, b, ⟨a, _, hgs.1, rfl, rfl⟩, hgs.2.1, by simp⟩
    · obtain rfl := List.eq_nil_of_length_eq_zero (by omega : gs.length = 0)
      exact .inr (by simpa using hv4)

theorem tailGroups_add {k : ℕ} : TailGroups (k + 2) t ↔ ∃ (gs : List (List UInt8)) (u : List UInt8),
    gs.length = k ∧ (∀ g ∈ gs, IsGroup g) ∧ TailGroups 2 u ∧
      t = gs.flatMap (· ++ [':'.toUInt8]) ++ u := by
  constructor
  · rintro (⟨gs, hlen, hgs, rfl⟩ | ⟨gs, v4, hlen, hgs, hv4, rfl⟩)
    · have hdrop : (gs.drop k).length = 2 := by
        rw [List.length_drop]
        omega
      have hne : gs.drop k ≠ [] := List.ne_nil_of_length_eq_add_one hdrop
      refine ⟨gs.take k, _, by simp [hlen], fun g hg => hgs g (List.mem_of_mem_take hg),
        .inl ⟨gs.drop k, hdrop, fun g hg => hgs g (List.mem_of_mem_drop hg), rfl⟩, ?_⟩
      rw [← intercalate_append _ _ hne, List.take_append_drop]
    · refine ⟨gs, v4, Nat.add_right_cancel hlen, hgs, .inr ⟨[], v4, rfl, by simp, hv4, by simp⟩, ?_⟩
      rw [intercalate_append _ _ (List.cons_ne_nil v4 []), List.intercalate_singleton]
  · rintro ⟨gs, _, rfl, hgs, ⟨hs, hlen, hhs, rfl⟩ | ⟨hs, v4, hlen, -, hv4, rfl⟩, rfl⟩
    · refine .inl ⟨gs ++ hs, by rw [List.length_append, hlen],
        List.forall_mem_append.mpr ⟨hgs, hhs⟩,
        ?_⟩
      rw [intercalate_append _ _ (List.ne_nil_of_length_eq_add_one hlen)]
    · obtain rfl := List.eq_nil_of_length_eq_zero (Nat.add_right_cancel hlen : hs.length = 0)
      refine .inr ⟨gs, v4, rfl, hgs, hv4, ?_⟩
      rw [List.nil_append, ← intercalate_append _ _ (List.cons_ne_nil v4 [])]

theorem generates_tail {k : ℕ} :
    Generates (.seq (.rep k k h16Colon) ls32) t ↔ TailGroups (k + 2) t := by
  rw [tailGroups_add]
  simp only [generates_seq, generates_ls32, generates_rep_of_iff fun _ => generates_h16Colon]
  constructor
  · rintro ⟨_, u, ⟨gs, hlo, hhi, hgs, rfl⟩, hu, rfl⟩
    exact ⟨gs, u, Nat.le_antisymm hhi hlo, hgs, hu, rfl⟩
  · rintro ⟨gs, u, rfl, hgs, hu, rfl⟩
    exact ⟨_, u, ⟨gs, le_rfl, le_rfl, hgs, rfl⟩, hu, rfl⟩

@[simp] theorem tailGroups_one : TailGroups 1 t ↔ IsGroup t := by
  constructor
  · rintro (⟨gs, hlen, hgs, rfl⟩ | ⟨gs, v4, hlen, -⟩)
    · obtain ⟨g, rfl⟩ := List.length_eq_one_iff.mp hlen
      simpa using hgs
    · omega
  · exact fun hg => .inl ⟨[t], rfl, by simpa using hg, by simp⟩

@[simp] theorem tailGroups_zero : TailGroups 0 t ↔ t = [] := by
  constructor
  · rintro (⟨gs, hlen, -, rfl⟩ | ⟨gs, v4, hlen, -⟩)
    · rw [List.eq_nil_of_length_eq_zero hlen]
      rfl
    · omega
  · rintro rfl
    exact .inl ⟨[], rfl, by simp, rfl⟩

end UriPar

/-- At most `m` groups in front of the two colons, and `n` behind them. -/
def Around (m n : ℕ) (t : List UInt8) : Prop := ∃ p q, (∃ k ≤ m, PlainGroups k p) ∧
  TailGroups n q ∧ t = p ++ ':'.toUInt8 :: ':'.toUInt8 :: q

theorem isIpv6_iff {t : List UInt8} :
    IsIpv6 t ↔ TailGroups 8 t ∨ ∃ n ≤ 7, Around (7 - n) n t := by
  refine or_congr_right ⟨?_, ?_⟩
  · rintro ⟨m, n, p, q, hmn, hp, hq, rfl⟩
    exact ⟨n, by omega, p, q, ⟨m, by omega, hp⟩, hq, rfl⟩
  · rintro ⟨n, hn, p, q, ⟨m, hm, hp⟩, hq, rfl⟩
    exact ⟨m, n, p, q, by omega, hp, hq, rfl⟩

namespace UriPar

variable {t : List UInt8} {g h : Rule} {m n : ℕ}

/-- The alternatives of an address, where `lead n` is for up to `n + 1` groups. -/
def addressRule (lead : ℕ → Rule) : Rule :=
  alts (.seq (.rep 6 6 h16Colon) ls32)
    [seqs colonColon [.rep 5 5 h16Colon, ls32],
      seqs (.rep 0 1 h16) [colonColon, .rep 4 4 h16Colon, ls32],
      seqs (lead 1) [colonColon, .rep 3 3 h16Colon, ls32],
      seqs (lead 2) [colonColon, .rep 2 2 h16Colon, ls32],
      seqs (lead 3) [colonColon, h16Colon, ls32],
      seqs (lead 4) [colonColon, ls32],
      seqs (lead 5) [colonColon, h16],
      .seq (lead 6) colonColon]

/-- The rule that `IPv6address` was rewritten from. -/
def rfcAddress : Rule := addressRule fun n => .rep 0 1 (.seq (.rep 0 n h16Colon) h16)

@[simp] theorem generates_colonColon : Generates colonColon t ↔ t = [':'.toUInt8, ':'.toUInt8] := by
  simp only [colonColon, generates_seq, generates_ch]
  constructor
  · rintro ⟨_, _, rfl, rfl, rfl⟩
    rfl
  · rintro rfl
    exact ⟨_, _, rfl, rfl, rfl⟩

theorem generates_around (hg : ∀ p, Generates g p ↔ ∃ k ≤ m, PlainGroups k p)
    (hh : ∀ q, Generates h q ↔ TailGroups n q) :
    Generates (.seq (.seq g colonColon) h) t ↔ Around m n t := by
  simp only [generates_seq, generates_colonColon, hg, hh, Around]
  constructor
  · rintro ⟨_, q, ⟨p, _, hp, rfl, rfl⟩, hq, rfl⟩
    exact ⟨p, q, hp, hq, by simp⟩
  · rintro ⟨p, q, hp, hq, rfl⟩
    exact ⟨_, q, ⟨p, _, hp, rfl, rfl⟩, hq, by simp⟩

theorem generates_colons (hh : ∀ q, Generates h q ↔ TailGroups n q) :
    Generates (.seq colonColon h) t ↔ Around 0 n t := by
  simp only [generates_seq, generates_colonColon, hh, Around]
  constructor
  · rintro ⟨_, q, rfl, hq, rfl⟩
    exact ⟨[], q, ⟨0, le_rfl, [], rfl, by simp, rfl⟩, hq, rfl⟩
  · rintro ⟨_, q, ⟨k, hk, gs, hlen, -, rfl⟩, hq, rfl⟩
    obtain rfl := List.eq_nil_of_length_eq_zero (hlen.trans (Nat.le_zero.mp hk))
    exact ⟨_, q, rfl, hq, rfl⟩

theorem generates_addressRule {lead : ℕ → Rule}
    (hlead : ∀ n p, Generates (lead n) p ↔ ∃ m ≤ n + 1, PlainGroups m p) :
    Generates (addressRule lead) t ↔ IsIpv6 t := by
  have hfive : Generates (seqs colonColon [.rep 5 5 h16Colon, ls32]) t ↔ Around 0 7 t :=
    generates_seq_assoc.trans (generates_colons fun _ => generates_tail)
  have hfour : Generates (seqs (.rep 0 1 h16) [colonColon, .rep 4 4 h16Colon, ls32]) t ↔
      Around 1 6 t :=
    generates_seq_assoc.trans (generates_around (fun _ => generates_optH16) fun _ => generates_tail)
  have htail : ∀ k n, Generates (seqs (lead k) [colonColon, .rep n n h16Colon, ls32]) t ↔
      Around (k + 1) (n + 2) t := fun k n =>
    generates_seq_assoc.trans (generates_around (hlead k) fun _ => generates_tail)
  have hone : Generates (seqs (lead 3) [colonColon, h16Colon, ls32]) t ↔ Around 4 3 t := by
    refine generates_seq_assoc.trans (generates_around (hlead 3) fun q => ?_)
    rw [← generates_tail (k := 1)]
    simp only [generates_seq, generates_once]
  have hls : Generates (seqs (lead 4) [colonColon, ls32]) t ↔ Around 5 2 t :=
    generates_around (hlead 4) fun _ => generates_ls32
  have hgroup : Generates (seqs (lead 5) [colonColon, h16]) t ↔ Around 6 1 t :=
    generates_around (hlead 5) fun _ => generates_h16.trans tailGroups_one.symm
  have hnone : Generates (.seq (lead 6) colonColon) t ↔ Around 7 0 t := by
    simp only [generates_seq, generates_colonColon, hlead, Around, tailGroups_zero]
    constructor
    · rintro ⟨p, _, hp, rfl, rfl⟩
      exact ⟨p, [], hp, rfl, rfl⟩
    · rintro ⟨p, _, hp, rfl, rfl⟩
      exact ⟨p, _, hp, rfl, rfl⟩
  rw [isIpv6_iff, addressRule]
  simp only [alts, List.foldl, generates_alt, generates_tail, hfive, hfour, htail, hone, hls,
    hgroup,
    hnone, or_assoc]
  refine or_congr_right ⟨?_, ?_⟩
  · rintro (h | h | h | h | h | h | h | h)
    exacts [⟨7, by omega, h⟩, ⟨6, by omega, h⟩, ⟨5, by omega, h⟩, ⟨4, by omega, h⟩,
      ⟨3, by omega, h⟩, ⟨2, by omega, h⟩, ⟨1, by omega, h⟩, ⟨0, by omega, h⟩]
  · rintro ⟨n, hn, h⟩
    interval_cases n <;> simp only [Nat.reduceSub] at h <;> simp [h]

theorem ipv6address_eq : ipv6address = addressRule h16UpTo := rfl

@[simp] theorem generates_ipv6address : Generates ipv6address t ↔ IsIpv6 t := by
  rw [ipv6address_eq]
  exact generates_addressRule fun _ _ => generates_h16UpTo

@[simp] theorem generates_rfcAddress : Generates rfcAddress t ↔ IsIpv6 t :=
  generates_addressRule fun _ _ => generates_groupsUpTo

theorem parse_ipv6address_iff :
    (∃ vs, parse ipv6address t = some (vs, [])) ↔ Generates ipv6address t := by
  constructor
  · rintro ⟨vs, hp⟩
    exact ⟨vs, derives_of_full hp⟩
  · rintro ⟨vs, hd⟩
    have hp := exact_ipv6address t vs [] hd heads_nil
    rw [List.append_nil] at hp
    exact ⟨vs, hp⟩

theorem parse_ipLiteral_iff {s r : List UInt8} : (∃ vs, parse ipLiteral s = some (vs, r)) ↔
    ∃ t, Generates ipv6address t ∧ s = '['.toUInt8 :: (t ++ ']'.toUInt8 :: r) := by
  constructor
  · rintro ⟨vs, hp⟩
    obtain ⟨ws, r₁, ws', hopen, hclose, -⟩ := parse_seq.mp hp
    obtain ⟨ws₁, r₂, ws₂, hmark, haddress, -⟩ := parse_seq.mp hopen
    obtain ⟨-, rfl⟩ := parse_sym.mp hmark
    obtain ⟨-, rfl⟩ := parse_sym.mp hclose
    obtain ⟨t, rfl, hd⟩ := derives_of_parse haddress
    exact ⟨t, ⟨_, hd⟩, rfl⟩
  · rintro ⟨t, ⟨vs, hd⟩, rfl⟩
    have hp := exact_ipv6address t vs (']'.toUInt8 :: r) hd (heads_cons (by simp))
    exact ⟨_, parse_seq.mpr ⟨_, _, _, parse_seq.mpr ⟨_, _, _, parse_sym.mpr ⟨rfl, rfl⟩, hp, rfl⟩,
      parse_sym.mpr ⟨rfl, rfl⟩, rfl⟩⟩

end UriPar

/-- For every text, `IPv6address` takes all of it if and only if it is derived, and
the derived texts are the addresses, as are those of the rule that was rewritten;
so `IP_literal` accepts the addresses in brackets and nothing else. -/
theorem ipv6_grammar_exact :
    (∀ t, (∃ vs, parse UriPar.ipv6address t = some (vs, [])) ↔ Generates UriPar.ipv6address t) ∧
    (∀ t, Generates UriPar.ipv6address t ↔ IsIpv6 t) ∧
    (∀ t, Generates UriPar.ipv6address t ↔ Generates UriPar.rfcAddress t) ∧
    ∀ s r, (∃ vs, parse UriPar.ipLiteral s = some (vs, r)) ↔
      ∃ t, IsIpv6 t ∧ s = '['.toUInt8 :: (t ++ ']'.toUInt8 :: r) := by
  refine ⟨fun t => UriPar.parse_ipv6address_iff, fun t => UriPar.generates_ipv6address,
    fun t => ?_, fun s r => ?_⟩
  · rw [UriPar.generates_ipv6address, UriPar.generates_rfcAddress]
  · rw [UriPar.parse_ipLiteral_iff]
    simp only [UriPar.generates_ipv6address]

/-- The parse of the rule that was rewritten loses the two colons of `a:b::`. -/
example : (parse UriPar.rfcAddress (['a', ':', 'b', ':', ':'].map Char.toUInt8)).isNone = true ∧
    (parse UriPar.ipv6address (['a', ':', 'b', ':', ':'].map Char.toUInt8)).isSome = true := by
  decide

end Lawd
