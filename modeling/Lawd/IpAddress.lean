import Lawd.Library.Grammar
import Lawd.Uri

/-!
# Internet addresses

The rules of the grammar that choose between overlapping forms take a derived
address in full when it is followed by a symbol that no address has. An octet is
the longest possible. The alternatives of `IPv6address` are told apart by their
separators: after the two colons, an earlier one has more of them.
-/
namespace Lawd

open Library Library.Peg

/-- The rest is empty or begins with one of the characters. -/
def Followed (cs : List Char) : List UInt8 → Prop := Heads (cs.map Char.toUInt8)

/-- What may follow a rule without an end of its own, in front of the bracket or
in a host. -/
abbrev Terminated : List UInt8 → Prop := Followed [']', ':', '/', '?']

namespace UriPar

theorem Followed.mono {cs ds : List Char} (h : cs.all ds.contains = true) (r : List UInt8)
    (hr : Followed cs r) : Followed ds r := by
  refine Heads.mono hr fun a ha => ?_
  obtain ⟨c, hc, rfl⟩ := List.mem_map.mp ha
  exact List.mem_map_of_mem (List.contains_iff_mem.mp (List.all_eq_true.mp h c hc))

theorem parse_none_of_followed {g : Rule} {cs : List Char} (hnull : nullable g = false)
    (hcs : cs.all (fun c => !first g c.toUInt8) = true) (r : List UInt8) (hr : Followed cs r) :
    parse g r = none := by
  refine parse_none_of_heads hnull (fun a ha => ?_) hr
  obtain ⟨c, hc, rfl⟩ := List.mem_map.mp ha
  simpa using List.all_eq_true.mp hcs c hc

theorem avoids_of_followed {g : Rule} {cs : List Char}
    (h : cs.all (fun c => avoids c.toUInt8 g) = true) (r : List UInt8) (hr : Followed cs r) :
    ∀ a ∈ r.head?, avoids a g = true := by
  intro a ha
  obtain ⟨c, hc, rfl⟩ := List.mem_map.mp (hr a ha)
  exact List.all_eq_true.mp h c hc

theorem exact_ch (F : List UInt8 → Prop) (c : Char) : Exact F (ch c) := exact_set

theorem derives_ch {c : Char} {t : List UInt8} {vs : List Node} (hd : Derives (ch c) t vs) :
    t = [c.toUInt8] := by
  cases hd with
  | set ha => rw [beq_iff_eq.mp ha]

theorem eq_of_first_ch {c : Char} {a : UInt8} (ha : first (ch c) a = true) : a = c.toUInt8 :=
  beq_iff_eq.mp ha

theorem eq_of_first {c : Char} {g : Rule} {a : UInt8} (ha : first (.seq (ch c) g) a = true) :
    a = c.toUInt8 := by
  simpa [first, nullable, ch, sym] using ha

theorem mem_of_first {c : Char} {cs : List Char} {g : Rule} (hc : c ∈ cs) (a : UInt8)
    (ha : first (.seq (ch c) g) a = true) : a ∈ cs.map Char.toUInt8 := by
  rw [eq_of_first ha]
  exact List.mem_map_of_mem hc

theorem mem_of_first_ch {c : Char} {cs : List Char} (hc : c ∈ cs) (a : UInt8)
    (ha : first (ch c) a = true) : a ∈ cs.map Char.toUInt8 := by
  rw [eq_of_first_ch ha]
  exact List.mem_map_of_mem hc

/-- The alternatives of an octet get shorter, so the first one that is possible
takes the longest. -/
theorem exact_decOctet : Exact (Followed ['.', ']', ':', '/', '?']) decOctet := by
  have hfirst : Exact (Followed ['.', ']', ':', '/', '?']) (seqs (ch '2') [ch '5', zeroToFive]) :=
    ((exact_ch _ _).seq_of_any (exact_ch _ _)).seq_of_any exact_set
  have hsecond : Exact (Followed ['.', ']', ':', '/', '?']) (seqs (ch '2') [zeroToFour, digit]) :=
    ((exact_ch _ _).seq_of_any exact_set).seq_of_any exact_set
  have hthird : Exact (Followed ['.', ']', ':', '/', '?']) (.seq (ch '1') (.rep 2 2 digit)) :=
    (exact_ch _ _).seq_of_any (Exact.rep_of_any exact_set fun h => absurd h (lt_irrefl 2))
  have hfourth : Exact (Followed ['.', ']', ':', '/', '?']) (.seq oneToNine digit) :=
    exact_set.seq_of_any exact_set
  have hfifth : Exact (Followed ['.', ']', ':', '/', '?']) digit := exact_set
  refine (((hfirst.alt_of_length hsecond ?_ ?_ rfl rfl).alt_of_length hthird ?_ ?_ rfl rfl
    ).alt_of_length hfourth ?_ ?_ rfl rfl).alt_of_length hfifth ?_ ?_ rfl rfl
  all_goals first | exact avoids_of_followed rfl | decide

theorem exact_octets :
    Exact (fun _ => True) (seqs decOctet [ch '.', decOctet, ch '.', decOctet, ch '.']) := by
  have hoctet : Exact (Followed ['.']) decOctet := exact_decOctet.mono (Followed.mono rfl)
  have hdot : ∀ a, first (ch '.') a = true → a ∈ ['.'].map Char.toUInt8 :=
    mem_of_first_ch List.mem_cons_self
  have hbegin : Exact (fun _ => True) (.seq decOctet (ch '.')) :=
    hoctet.seq_of_heads (exact_ch _ _) rfl hdot
  have hnext : ∀ {g : Rule}, Exact (fun _ => True) g →
      Exact (fun _ => True) (.seq (.seq g decOctet) (ch '.')) := fun hg =>
    (hg.seq_of_any hoctet).seq_of_heads (exact_ch _ _) rfl hdot
  exact hnext (hnext hbegin)

theorem exact_ipv4address : Exact Terminated ipv4address :=
  exact_octets.seq_of_any (exact_decOctet.mono (Followed.mono rfl))

theorem isDigit_of_first {a : UInt8} (ha : first decOctet a = true) : isDigit a = true := by
  simp only [decOctet, alts, seqs, List.foldl, first, nullable, Bool.false_and, Bool.or_false,
    Bool.or_eq_true, ch, sym, beq_iff_eq, oneToNine, digit, Bool.and_eq_true] at ha
  obtain (((rfl | rfl) | rfl) | ⟨h, -⟩) | h := ha
  · rfl
  · rfl
  · rfl
  · exact h
  · exact h

theorem parse_ipv4address {x : List UInt8} {vs : List Node} (hd : Derives ipv4address x vs)
    (u : List UInt8) : ∃ out, parse ipv4address (x ++ u) = some out := by
  cases hd with
  | @seq _ _ s t vs ws hd hlast =>
    obtain ⟨a, w, rfl, ha⟩ := hlast.first rfl
    obtain ⟨out, hout⟩ : ∃ out, parse decOctet (a :: (w ++ u)) = some out := by
      cases hp : parse (alts (seqs (ch '2') [ch '5', zeroToFive])
          [seqs (ch '2') [zeroToFour, digit], .seq (ch '1') (.rep 2 2 digit),
            .seq oneToNine digit]) (a :: (w ++ u)) with
      | none =>
        exact ⟨([], w ++ u), (parse_alt_right hp).trans
          (by simp [digit, parse, isDigit_of_first ha])⟩
      | some out => exact ⟨out, parse_alt_left hp⟩
    refine ⟨(vs ++ out.1, out.2), parse_seq.mpr ⟨vs, _, _, ?_, hout, rfl⟩⟩
    rw [List.append_assoc]
    exact exact_octets s vs _ hd trivial

theorem exact_h16 : Exact (Followed [':', ']']) h16 :=
  Exact.rep_of_any exact_set fun _ => parse_none_of_followed rfl rfl

theorem first_colon : ∀ a, first colon a = true → a ∈ [':', ']'].map Char.toUInt8 :=
  mem_of_first_ch List.mem_cons_self

theorem exact_h16Colon : Exact (fun _ => True) h16Colon :=
  exact_h16.seq_of_heads (exact_ch _ _) rfl first_colon

theorem exact_colonH16 : Exact (Followed [':', ']']) colonH16 := (exact_ch _ _).seq_of_any exact_h16

theorem exact_colonColon {F : List UInt8 → Prop} : Exact F colonColon :=
  (exact_ch _ _).seq_of_any (exact_ch _ _)

theorem exact_h16Colons {F : List UInt8 → Prop} (n : ℕ) : Exact F (.rep n n h16Colon) :=
  exact_h16Colon.rep_of_any fun h => absurd h (lt_irrefl n)

theorem exact_ls32 : Exact (Followed [']']) ls32 := by
  have hgroups : Exact (Followed [']']) (seqs h16 [colon, h16]) :=
    (exact_h16.seq_of_heads (exact_ch _ _) rfl first_colon : Exact (fun _ => True) _).seq_of_any
      (exact_h16.mono (Followed.mono rfl))
  have hv4 : Exact (Followed [']']) ipv4address := exact_ipv4address.mono (Followed.mono rfl)
  refine hgroups.alt_of_begin hv4 (avoids_of_followed rfl) ?_
  intro x y vs ws hx hxy
  cases hx with
  | seq hx _ =>
    cases hx with
    | seq _ hcolon =>
      have havoid := hxy.avoids (b := ':'.toUInt8) rfl
      rw [derives_ch hcolon] at havoid
      simp at havoid

end UriPar

/-- The rest begins with the two colons. -/
def Elides (r : List UInt8) : Prop := ∃ u, r = ':'.toUInt8 :: ':'.toUInt8 :: u

namespace UriPar

theorem Elides.heads {r : List UInt8} (hr : Elides r) : Followed [':', ']'] r := by
  obtain ⟨u, rfl⟩ := hr
  exact heads_cons (by simp)

theorem exact_h16UpTo (n : ℕ) : Exact Elides (h16UpTo n) := by
  have hcolon : ∀ a, first colonH16 a = true → a ∈ [':', ']'].map Char.toUInt8 :=
    mem_of_first List.mem_cons_self
  have hmore : Exact Elides (.rep 0 n colonH16) := by
    refine exact_colonH16.rep (fun t vs r hd _ => ?_) (fun r hr => Elides.heads hr) fun _ r hr => ?_
    · exact hd.heads_append hcolon fun h => by cases h
    · obtain ⟨u, rfl⟩ := hr
      rfl
  have hgroups : Exact Elides (.seq h16 (.rep 0 n colonH16)) :=
    exact_h16.seq hmore fun t vs r hd hr => hd.heads_append hcolon fun _ => Elides.heads hr
  exact hgroups.opt fun r hr => parse_none_of_followed rfl rfl r (Elides.heads hr)

theorem exact_optH16 : Exact Elides (.rep 0 1 h16) := by
  have hh16 : Exact Elides h16 := exact_h16.mono fun r hr => Elides.heads hr
  exact hh16.opt fun r hr => parse_none_of_followed rfl rfl r (Elides.heads hr)

end UriPar

/-- Each colon is followed by something else. -/
def Spaced : List UInt8 → Prop
  | [] => True
  | a :: t => (a = ':'.toUInt8 → ∃ b ∈ t.head?, b ≠ ':'.toUInt8) ∧ Spaced t

theorem spaced_of_not_mem {t : List UInt8} (h : ':'.toUInt8 ∉ t) : Spaced t := by
  induction t with
  | nil => trivial
  | cons a t ih =>
    rw [List.mem_cons, not_or] at h
    exact ⟨fun ha => absurd ha.symm h.1, ih h.2⟩

theorem Spaced.append {s t : List UInt8} (hs : Spaced s) (ht : Spaced t) : Spaced (s ++ t) := by
  induction s with
  | nil => exact ht
  | cons a s ih =>
    refine ⟨fun ha => ?_, ih hs.2⟩
    obtain ⟨b, hb, hne⟩ := hs.1 ha
    exact ⟨b, by simp [List.head?_append, Option.mem_def.mp hb], hne⟩

theorem Spaced.up_to_colons {x y p q : List UInt8} (hx : Spaced x)
    (h : x ++ y = p ++ ':'.toUInt8 :: ':'.toUInt8 :: q) : ∃ z, p = x ++ z := by
  induction x generalizing p with
  | nil => exact ⟨p, rfl⟩
  | cons a x ih =>
    cases p with
    | nil =>
      simp only [List.cons_append, List.nil_append, List.cons.injEq] at h
      obtain ⟨b, hb, hne⟩ := hx.1 h.1
      obtain ⟨x', rfl⟩ : ∃ x', x = b :: x' := by
        cases x with
        | nil => cases hb
        | cons c x => exact ⟨x, by rw [Option.some.inj hb]⟩
      simp only [List.cons_append, List.cons.injEq] at h
      exact absurd h.2.1 hne
    | cons b p =>
      simp only [List.cons_append, List.cons.injEq] at h
      obtain ⟨z, rfl⟩ := ih hx.2 h.2
      exact ⟨z, by rw [h.1, List.cons_append]⟩

/-- The text stands for a number of groups, told from its separators; an IPv4
address takes the last two. -/
def Groups (k : ℕ) (t : List UInt8) : Prop :=
  (t.count ':'.toUInt8 + 1 = k ∧ t.count '.'.toUInt8 = 0 ∧ t ≠ []) ∨
  (t.count ':'.toUInt8 + 2 = k ∧ 3 ≤ t.count '.'.toUInt8) ∨
  (k = 0 ∧ t = [])

theorem Groups.le_of_append {k j : ℕ} {x y : List UInt8} (hx : Groups k x)
    (hxy : Groups j (x ++ y)) :
    k ≤ j := by
  simp only [Groups, List.count_append] at hx hxy
  obtain ⟨hk, hdot, hne⟩ | ⟨hk, hdot⟩ | ⟨hk, -⟩ := hx
  · obtain ⟨hj, -, -⟩ | ⟨hj, -⟩ | ⟨-, hnil⟩ := hxy
    · omega
    · omega
    · exact absurd (List.append_eq_nil_iff.mp hnil).1 hne
  · obtain ⟨hj, hzero, -⟩ | ⟨hj, -⟩ | ⟨-, hnil⟩ := hxy
    · omega
    · omega
    · rw [(List.append_eq_nil_iff.mp hnil).1] at hdot
      simp at hdot
  · omega

theorem Groups.prepend {k n : ℕ} {s t : List UInt8} (ht : Groups k t) (hk : 0 < k)
    (hcolon : s.count ':'.toUInt8 = n) (hdot : s.count '.'.toUInt8 = 0) :
    Groups (k + n) (s ++ t) := by
  simp only [Groups, List.count_append] at ht ⊢
  obtain ⟨hj, hzero, hne⟩ | ⟨hj, hthree⟩ | ⟨h, -⟩ := ht
  · exact .inl ⟨by omega, by omega, by simp [hne]⟩
  · exact .inr (.inl ⟨by omega, by omega⟩)
  · omega

/-- An address with two colons, and a number of groups behind them. -/
def Elided (k : ℕ) (t : List UInt8) : Prop :=
  ∃ p q, t = p ++ ':'.toUInt8 :: ':'.toUInt8 :: q ∧ Spaced p ∧ p.count ':'.toUInt8 ≤ 6 ∧
    p.count '.'.toUInt8 = 0 ∧ Groups k q

theorem Elided.le_of_append {k j : ℕ} {x y : List UInt8} (hx : Elided k x)
    (hxy : Elided j (x ++ y)) :
    k ≤ j := by
  obtain ⟨p, q, rfl, hp, -, -, hq⟩ := hx
  obtain ⟨p', q', h, hp', -, -, hq'⟩ := hxy
  rw [List.append_assoc] at h
  obtain ⟨z, rfl⟩ := hp.up_to_colons h
  obtain ⟨w, hw⟩ := hp'.up_to_colons h.symm
  have hlen := congrArg List.length hw
  simp only [List.length_append] at hlen
  obtain rfl : z = [] := List.eq_nil_of_length_eq_zero (by omega)
  simp only [List.append_nil, List.append_cancel_left_eq, List.cons_append, List.cons.injEq,
    true_and] at h
  rw [← h] at hq'
  exact hq.le_of_append hq'

theorem Elided.not_full {j : ℕ} {x y : List UInt8} (hx : Spaced x) (hfull : Groups 8 x)
    (hxy : Elided j (x ++ y)) : False := by
  obtain ⟨p, q, h, -, hcolon, hdot, -⟩ := hxy
  obtain ⟨z, rfl⟩ := hx.up_to_colons h
  simp only [List.count_append] at hcolon hdot
  obtain ⟨hk, -, -⟩ | ⟨hk, hthree⟩ | ⟨hk, -⟩ := hfull <;> omega

namespace UriPar

variable {t : List UInt8} {vs : List Node}

theorem spaced_h16 (hd : Derives h16 t vs) : Spaced t :=
  spaced_of_not_mem (hd.avoids rfl)

theorem groups_h16 (hd : Derives h16 t vs) : Groups 1 t := by
  have hne := hd.le_length
  refine .inl ⟨?_, ?_, ?_⟩
  · rw [List.count_eq_zero.mpr (hd.avoids rfl)]
  · exact List.count_eq_zero.mpr (hd.avoids rfl)
  · rintro rfl
    exact absurd hne (by decide)

theorem count_h16Colon (hd : Derives h16Colon t vs) :
    t.count ':'.toUInt8 = 1 ∧ t.count '.'.toUInt8 = 0 := by
  refine ⟨?_, List.count_eq_zero.mpr (hd.avoids rfl)⟩
  cases hd with
  | seq hd hcolon =>
    rw [derives_ch hcolon, List.count_append,
      List.count_eq_zero.mpr (hd.avoids rfl)]
    rfl

theorem count_colonH16 (hd : Derives colonH16 t vs) :
    t.count ':'.toUInt8 = 1 ∧ t.count '.'.toUInt8 = 0 := by
  refine ⟨?_, List.count_eq_zero.mpr (hd.avoids rfl)⟩
  cases hd with
  | seq hcolon hd =>
    rw [derives_ch hcolon, List.count_append,
      List.count_eq_zero.mpr (hd.avoids rfl)]
    rfl

theorem count_h16Colons {n : ℕ} (hd : Derives (.rep n n h16Colon) t vs) :
    t.count ':'.toUInt8 = n ∧ t.count '.'.toUInt8 = 0 := by
  obtain ⟨k, hlo, hhi, hcolon⟩ := hd.count_rep fun _ _ h => (count_h16Colon h).1
  obtain ⟨_, -, -, hdot⟩ := hd.count_rep fun _ _ h => (count_h16Colon h).2
  exact ⟨by omega, hdot⟩

theorem groups_ls32 (hd : Derives ls32 t vs) : Groups 2 t := by
  cases hd with
  | left hd =>
    cases hd with
    | seq hfirst hlast =>
      obtain ⟨hcolon, hdot⟩ := count_h16Colon hfirst
      exact (groups_h16 hlast).prepend (by omega) hcolon hdot
  | right hd =>
    refine .inr (.inl ⟨?_, ?_⟩)
    · rw [List.count_eq_zero.mpr (hd.avoids rfl)]
    · cases hd with
      | seq hd _ =>
        cases hd with
        | seq hd h₃ =>
          cases hd with
          | seq hd _ =>
            cases hd with
            | seq hd h₂ =>
              cases hd with
              | seq hd _ =>
                cases hd with
                | seq _ h₁ =>
                  rw [derives_ch h₁, derives_ch h₂, derives_ch h₃]
                  simp only [List.count_append, List.count_singleton_self]
                  omega

theorem groups_h16Colons {n : ℕ} {u : List UInt8} {ws : List Node}
    (hd : Derives (.rep n n h16Colon) t vs) (hls : Derives ls32 u ws) :
    Groups (2 + n) (t ++ u) :=
  (groups_ls32 hls).prepend (by omega) (count_h16Colons hd).1 (count_h16Colons hd).2

end UriPar

/-- What may stand in front of the two colons. -/
def Lead (t : List UInt8) : Prop :=
  Spaced t ∧ t.count ':'.toUInt8 ≤ 6 ∧ t.count '.'.toUInt8 = 0

theorem Lead.elided {k : ℕ} {p q : List UInt8} (hp : Lead p) (hq : Groups k q) :
    Elided k (p ++ ':'.toUInt8 :: ':'.toUInt8 :: q) :=
  ⟨p, q, rfl, hp.1, hp.2.1, hp.2.2, hq⟩

namespace UriPar

variable {t : List UInt8} {vs : List Node}

theorem lead_nil : Lead [] := ⟨trivial, by simp, by simp⟩

theorem lead_optH16 (hd : Derives (.rep 0 1 h16) t vs) : Lead t := by
  cases hd with
  | none => exact lead_nil
  | copy hd hrest =>
    cases hrest
    rw [List.append_nil]
    exact ⟨spaced_h16 hd, by simp [List.count_eq_zero.mpr (hd.avoids (b := ':'.toUInt8)
      rfl)], List.count_eq_zero.mpr (hd.avoids rfl)⟩

theorem spaced_colonH16 (hd : Derives colonH16 t vs) : Spaced t := by
  cases hd with
  | seq hcolon hd =>
    obtain ⟨a, u, rfl, ha⟩ := hd.first rfl
    rw [derives_ch hcolon]
    refine ⟨fun _ => ⟨a, rfl, ?_⟩, spaced_h16 hd⟩
    rintro rfl
    cases ha

theorem spaced_colonH16s {lo n : ℕ} (hd : Derives (.rep lo n colonH16) t vs) : Spaced t := by
  induction n generalizing lo t vs with
  | zero =>
    cases hd
    trivial
  | succ n ih =>
    cases hd with
    | none => trivial
    | copy hd hrest => exact (spaced_colonH16 hd).append (ih hrest)

theorem lead_h16UpTo {n : ℕ} (hn : n ≤ 6) (hd : Derives (h16UpTo n) t vs) : Lead t := by
  cases hd with
  | none => exact lead_nil
  | copy hd hrest =>
    cases hrest
    cases hd with
    | seq hd hmore =>
      obtain ⟨k, -, hk, hcolon⟩ := hmore.count_rep fun _ _ h => (count_colonH16 h).1
      obtain ⟨_, -, -, hdot⟩ := hmore.count_rep fun _ _ h => (count_colonH16 h).2
      have hzero := List.count_eq_zero.mpr (hd.avoids (b := ':'.toUInt8) rfl)
      have hzero' := List.count_eq_zero.mpr (hd.avoids (b := '.'.toUInt8) rfl)
      refine ⟨?_, ?_, ?_⟩
      · rw [List.append_nil]
        exact (spaced_h16 hd).append (spaced_colonH16s hmore)
      · rw [List.append_nil, List.count_append]
        omega
      · rw [List.append_nil, List.count_append]
        omega

theorem spaced_h16Colons {lo n : ℕ} {u : List UInt8} (hd : Derives (.rep lo n h16Colon) t vs)
    (hu : Spaced u) (hhead : ∃ b ∈ u.head?, b ≠ ':'.toUInt8) :
    Spaced (t ++ u) ∧ ∃ b ∈ (t ++ u).head?, b ≠ ':'.toUInt8 := by
  induction n generalizing lo t vs with
  | zero =>
    cases hd
    exact ⟨hu, hhead⟩
  | succ n ih =>
    cases hd with
    | none => exact ⟨hu, hhead⟩
    | copy hd hrest =>
      obtain ⟨hspaced, hne⟩ := ih hrest
      cases hd with
      | seq hd hcolon =>
        obtain ⟨a, w, rfl, ha⟩ := hd.first rfl
        rw [derives_ch hcolon, List.append_assoc, List.append_assoc]
        refine ⟨(spaced_h16 hd).append ⟨fun _ => hne, hspaced⟩, a, rfl, ?_⟩
        rintro rfl
        cases ha

theorem spaced_ls32 (hd : Derives ls32 t vs) :
    Spaced t ∧ ∃ b ∈ t.head?, b ≠ ':'.toUInt8 := by
  refine ⟨?_, ?_⟩
  · cases hd with
    | left hd =>
      cases hd with
      | seq hd hlast =>
        cases hd with
        | seq hd hcolon =>
          obtain ⟨a, w, rfl, ha⟩ := hlast.first rfl
          rw [derives_ch hcolon, List.append_assoc]
          refine (spaced_h16 hd).append ⟨fun _ => ⟨a, rfl, ?_⟩, spaced_h16 hlast⟩
          rintro rfl
          cases ha
    | right hd => exact spaced_of_not_mem (hd.avoids rfl)
  · obtain ⟨a, u, rfl, ha⟩ := hd.first rfl
    refine ⟨a, rfl, ?_⟩
    rintro rfl
    cases ha

/-- A rule for an address up to the two colons. -/
structure Opening (g : Rule) : Prop where
  exact : ∀ F, Exact F g
  lead : ∀ t vs, Derives g t vs → ∃ p, Lead p ∧ t = p ++ [':'.toUInt8, ':'.toUInt8]

theorem derives_colonColon (hd : Derives colonColon t vs) : t = [':'.toUInt8, ':'.toUInt8] := by
  cases hd with
  | seq hd hd' =>
    rw [derives_ch hd, derives_ch hd']
    rfl

theorem opening_colonColon : Opening colonColon where
  exact _ := exact_colonColon
  lead _ _ hd := ⟨[], lead_nil, derives_colonColon hd⟩

theorem opening_of_lead {g : Rule} (hexact : Exact Elides g)
    (hlead : ∀ t vs, Derives g t vs → Lead t) : Opening (.seq g colonColon) where
  exact F := hexact.seq exact_colonColon fun t vs r hd _ => by
    rw [derives_colonColon hd]
    exact ⟨r, rfl⟩
  lead t vs hd := by
    cases hd with
    | seq hd hcolons => exact ⟨_, hlead _ _ hd, by rw [derives_colonColon hcolons]⟩

theorem Opening.elided {g h : Rule} {k : ℕ} (ho : Opening g)
    (hgroups : ∀ t vs, Derives h t vs → Groups k t) (hd : Derives (.seq g h) t vs) :
    Elided k t := by
  cases hd with
  | seq hd hd' =>
    obtain ⟨p, hp, rfl⟩ := ho.lead _ _ hd
    have htext := hp.elided (hgroups _ _ hd')
    simpa using htext

/-- The alternatives so far take an address with two colons and fewer groups
behind them for none of theirs. -/
structure Settled (k : ℕ) (g : Rule) : Prop where
  exact : Exact (Followed [']']) g
  avoid : avoids ']'.toUInt8 g = true
  ahead : ∀ t vs, Derives g t vs →
    (Spaced t ∧ Groups 8 t) ∨ ∃ j, k ≤ j ∧ Elided j t

theorem Settled.alt {k : ℕ} {g h : Rule} (hg : Settled (k + 1) g) (hh : Exact (Followed [']']) h)
    (havoid : avoids ']'.toUInt8 h = true) (helided : ∀ t vs, Derives h t vs → Elided k t) :
    Settled k (.alt g h) where
  exact := by
    refine hg.exact.alt_of_begin hh ?_ fun x y vs ws hx hxy => ?_
    · exact avoids_of_followed (by simp [hg.avoid])
    · obtain ⟨hspaced, hfull⟩ | ⟨j, hj, hx⟩ := hg.ahead x ws hx
      · exact (helided _ _ hxy).not_full hspaced hfull
      · have hle := hx.le_of_append (helided _ _ hxy)
        omega
  avoid := by rw [avoids, hg.avoid, havoid, Bool.and_self]
  ahead t vs hd := by
    cases hd with
    | left hd =>
      obtain h | ⟨j, hj, h⟩ := hg.ahead t vs hd
      · exact .inl h
      · exact .inr ⟨j, by omega, h⟩
    | right hd => exact .inr ⟨k, le_rfl, helided t vs hd⟩

theorem settled_full : Settled 8 (.seq (.rep 6 6 h16Colon) ls32) where
  exact := (exact_h16Colons 6).seq_of_any exact_ls32
  avoid := rfl
  ahead t vs hd := by
    cases hd with
    | seq hd hls =>
      obtain ⟨hspaced, hhead⟩ := spaced_ls32 hls
      exact .inl ⟨(spaced_h16Colons hd hspaced hhead).1, groups_h16Colons hd hls⟩

theorem Opening.exact_groups {g : Rule} (ho : Opening g) (n : ℕ) :
    Exact (Followed [']']) (.seq (.seq g (.rep n n h16Colon)) ls32) :=
  ((ho.exact _).seq_of_any (exact_h16Colons n)).seq_of_any exact_ls32

theorem Opening.elided_groups {g : Rule} (ho : Opening g) (n : ℕ) (t : List UInt8)
    (vs : List Node) (hd : Derives (.seq (.seq g (.rep n n h16Colon)) ls32) t vs) :
    Elided (2 + n) t := by
  cases hd with
  | seq hd hls =>
    cases hd with
    | seq hd hmore =>
      have hgroups : ∀ t vs, Derives (.seq (.rep n n h16Colon) ls32) t vs → Groups (2 + n) t := by
        intro t vs hd
        cases hd with
        | seq hd hls => exact groups_h16Colons hd hls
      have htext := ho.elided hgroups (.seq hd (.seq hmore hls))
      rwa [List.append_assoc]

theorem Opening.elided_group {g : Rule} (ho : Opening g) (t : List UInt8) (vs : List Node)
    (hd : Derives (.seq (.seq g h16Colon) ls32) t vs) : Elided 3 t := by
  cases hd with
  | seq hd hls =>
    cases hd with
    | seq hd hcolon =>
      have hgroups : ∀ t vs, Derives (.seq h16Colon ls32) t vs → Groups 3 t := by
        intro t vs hd
        cases hd with
        | seq hd hls =>
          obtain ⟨hcount, hdot⟩ := count_h16Colon hd
          exact (groups_ls32 hls).prepend (by omega) hcount hdot
      have htext := ho.elided hgroups (.seq hd (.seq hcolon hls))
      rwa [List.append_assoc]

theorem exact_ipv6address : Exact (Followed [']']) ipv6address := by
  have hopen : ∀ n ≤ 6, Opening (.seq (h16UpTo n) colonColon) := fun n hn =>
    opening_of_lead (exact_h16UpTo n) fun t vs => lead_h16UpTo hn
  have hopt : Opening (.seq (.rep 0 1 h16) colonColon) :=
    opening_of_lead exact_optH16 fun t vs => lead_optH16
  have hcolons : Settled 7 _ := settled_full.alt (opening_colonColon.exact_groups 5) rfl
    (opening_colonColon.elided_groups 5)
  have hone : Settled 6 _ := hcolons.alt (hopt.exact_groups 4) rfl (hopt.elided_groups 4)
  have htwo : Settled 5 _ := hone.alt ((hopen 1 (by omega)).exact_groups 3) rfl
    ((hopen 1 (by omega)).elided_groups 3)
  have hthree : Settled 4 _ := htwo.alt ((hopen 2 (by omega)).exact_groups 2) rfl
    ((hopen 2 (by omega)).elided_groups 2)
  have hfour : Settled 3 _ := hthree.alt
    ((((hopen 3 (by omega)).exact _).seq_of_any exact_h16Colon).seq_of_any exact_ls32) rfl
    (hopen 3 (by omega)).elided_group
  have hfive : Settled 2 _ := hfour.alt (((hopen 4 (by omega)).exact _).seq_of_any exact_ls32) rfl
    fun t vs => (hopen 4 (by omega)).elided fun t vs => groups_ls32
  have hsix : Settled 1 _ := hfive.alt
    (((hopen 5 (by omega)).exact _).seq_of_any (exact_h16.mono (Followed.mono rfl))) rfl
    fun t vs => (hopen 5 (by omega)).elided fun t vs => groups_h16
  refine (hsix.alt ((hopen 6 le_rfl).exact _) rfl fun t vs hd => ?_ : Settled 0 _).exact
  obtain ⟨p, hp, rfl⟩ := (hopen 6 le_rfl).lead t vs hd
  exact hp.elided (.inr (.inr ⟨rfl, rfl⟩))

end UriPar

end Lawd
