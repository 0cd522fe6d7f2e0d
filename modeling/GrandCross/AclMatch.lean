import GrandCross.Conf
import GrandCross.Runs

/-!
# What an allow list admits

`common/acl.c` divides the list with a scanner of its own, reads addresses
digit by digit and compares under a mask.  The entries that match are described
on their text; the list admits a peer exactly when one of its entries does.
-/

namespace GrandCross

open CText Runs

/-! ## Addresses and entries -/

def Numeral (s : Bytes) (n : ℕ) : Prop :=
  s ≠ [] ∧ (∀ b ∈ s, isDigit b = true) ∧ digitsVal 0 s = n

/-- One to three digits. -/
structure OctetText (s : Bytes) (n : ℕ) : Prop where
  num : Numeral s n
  short : s.length ≤ 3
  octet : n ≤ 255

inductive OctetsText : List ℕ → Bytes → Prop where
  | one {n : ℕ} {s : Bytes} (octet : OctetText s n) : OctetsText [n] s
  | more {n : ℕ} {ns : List ℕ} {s t : Bytes} (octet : OctetText s n)
      (rest : OctetsText ns t) : OctetsText (n :: ns) (s ++ period :: t)

def addrFrom (v : ℕ) (octets : List ℕ) : ℕ := octets.foldl (fun v n => v * 256 + n) v

/-- Four octets with periods between them. -/
def AddressText (s : Bytes) (addr : ℕ) : Prop :=
  ∃ octets, octets.length = 4 ∧ OctetsText octets s ∧ addr = addrFrom 0 octets

/-- An address, or an address and the number of leading bits that count. -/
def EntryMatches (entry : Bytes) (peer : ℕ) : Prop :=
  AddressText entry peer ∨
    ∃ q n addr bits, entry = q ++ cidrMark :: n ∧ AddressText q addr ∧ Numeral n bits ∧
      bits ≤ 32 ∧ peer / 2 ^ (32 - bits) = addr / 2 ^ (32 - bits)

/-- A maximal part of the value without separators. -/
def IsEntry (e value : Bytes) : Prop :=
  ∃ before after, value = before ++ (e ++ after) ∧ e ≠ [] ∧
    (∀ b ∈ e, isListSep b = false) ∧ (∀ b ∈ before.getLast?, isListSep b = true) ∧
    ∀ b ∈ after.head?, isListSep b = true

theorem mem_runs_iff_isEntry {e value : Bytes} :
    e ∈ runs isListSep value ↔ IsEntry e value :=
  mem_runs_iff

/-! ## Octets -/

def NoDigitNext (rest : Bytes) : Prop := ∀ b ∈ rest.head?, isDigit b = false

theorem octLoop_spec
    {s rest : Bytes} {oct digits o d : ℕ} (h : octLoop s oct digits = some (o, d, rest)) :
    ∃ ds, s = ds ++ rest ∧ (∀ b ∈ ds, isDigit b = true) ∧ d = digits + ds.length ∧
      o = digitsVal oct ds ∧ NoDigitNext rest ∧ (oct ≤ 255 → o ≤ 255) ∧
      (digits ≤ 3 → d ≤ 3) := by
  induction s generalizing oct digits with
  | nil =>
      simp only [octLoop, Option.some.injEq, Prod.mk.injEq] at h
      obtain ⟨rfl, rfl, rfl⟩ := h
      exact ⟨[], rfl, by simp, rfl, rfl, by simp [NoDigitNext], id, id⟩
  | cons b s ih =>
      unfold octLoop at h
      split_ifs at h with hdigit hbig
      · obtain ⟨ds, rfl, hds, hd, ho, hnext, hle, hshort⟩ := ih h
        refine ⟨b :: ds, rfl, ?_, ?_, ?_, hnext, ?_, ?_⟩
        · simpa [hdigit] using hds
        · rw [hd, List.length_cons]
          omega
        · rw [ho]
          simp [digitsVal, hdigit]
        · exact fun _ => hle (by omega)
        · exact fun _ => hshort (by omega)
      · simp only [Option.some.injEq, Prod.mk.injEq] at h
        obtain ⟨rfl, rfl, rfl⟩ := h
        exact ⟨[], rfl, by simp, rfl, rfl, by simpa [NoDigitNext] using hdigit, id, id⟩

theorem digitsVal_ge (acc : ℕ) (ds : Bytes) : acc ≤ digitsVal acc ds := by
  induction ds generalizing acc with
  | nil => exact le_rfl
  | cons b ds ih =>
      unfold digitsVal
      split_ifs
      · have h := ih (acc * 10 + digitVal b)
        omega
      · exact le_rfl

theorem octLoop_read
    {ds rest : Bytes} {oct digits : ℕ} (hds : ∀ b ∈ ds, isDigit b = true)
    (hval : digitsVal oct ds ≤ 255) (hlen : digits + ds.length ≤ 3)
    (hrest : NoDigitNext rest) :
    octLoop (ds ++ rest) oct digits =
      some (digitsVal oct ds, digits + ds.length, rest) := by
  induction ds generalizing oct digits with
  | nil =>
      cases rest with
      | nil => rfl
      | cons b rest =>
          have hb : isDigit b = false := hrest b rfl
          simp [octLoop, hb, digitsVal]
  | cons b ds ih =>
      have hb := hds b (by simp)
      have hge := digitsVal_ge (oct * 10 + digitVal b) ds
      simp only [digitsVal, hb, if_true] at hval ⊢
      simp only [List.length_cons] at hlen
      rw [List.cons_append, octLoop, if_pos hb, if_neg (by omega),
        ih (fun c hc => hds c (by simp [hc])) hval (by omega), List.length_cons]
      congr 3
      omega

/-- The octet at the front is read, whatever follows. -/
theorem octLoop_octet_iff {s rest : Bytes} {n : ℕ} :
    (∃ d, d ≠ 0 ∧ octLoop s 0 0 = some (n, d, rest)) ↔
      ∃ ds, OctetText ds n ∧ s = ds ++ rest ∧ NoDigitNext rest := by
  constructor
  · rintro ⟨d, hd, hread⟩
    obtain ⟨ds, rfl, hds, hlen, hval, hnext, hle, hshort⟩ := octLoop_spec hread
    have hne : ds ≠ [] := by
      rintro rfl
      exact hd hlen
    exact ⟨ds, ⟨⟨hne, hds, hval.symm⟩, by have := hshort (by omega); omega, hle (by omega)⟩,
      rfl, hnext⟩
  · rintro ⟨ds, ⟨⟨hne, hds, hval⟩, hshort, hoctet⟩, rfl, hnext⟩
    have hread : octLoop (ds ++ rest) 0 0 =
        some (digitsVal 0 ds, 0 + ds.length, rest) :=
      octLoop_read hds (by omega) (by omega) hnext
    have hpos := List.length_pos_iff.mpr hne
    exact ⟨0 + ds.length, by omega, by rw [hread, hval]⟩

theorem noDigitNext_period (rest : Bytes) : NoDigitNext (period :: rest) := by
  intro b hb
  obtain rfl : period = b := by simpa using hb
  rfl

theorem ipOctets_spec
    {left v w : ℕ} {s rest : Bytes} (h : ipOctets (left + 1) v s = some (w, rest)) :
    ∃ ns q, ns.length = left + 1 ∧ OctetsText ns q ∧ s = q ++ rest ∧ NoDigitNext rest ∧
      w = addrFrom v ns := by
  induction left generalizing v s with
  | zero =>
      unfold ipOctets at h
      cases hoct : octLoop s 0 0 with
      | none => simp [hoct] at h
      | some res =>
          obtain ⟨oct, digits, tail⟩ := res
          simp only [hoct, if_true] at h
          split_ifs at h with hnone
          simp only [Option.some.injEq, Prod.mk.injEq] at h
          obtain ⟨rfl, rfl⟩ := h
          obtain ⟨ds, hds, rfl, hnext⟩ := octLoop_octet_iff.mp ⟨digits, hnone, hoct⟩
          have hoctet := hds.octet
          exact ⟨[oct], ds, rfl, .one hds, rfl, hnext, shiftLeft_or v 8 (by omega)⟩
  | succ left ih =>
      unfold ipOctets at h
      cases hoct : octLoop s 0 0 with
      | none => simp [hoct] at h
      | some res =>
          obtain ⟨oct, digits, tail⟩ := res
          simp only [hoct, Nat.add_eq_zero_iff, one_ne_zero, and_false, if_false] at h
          split_ifs at h with hnone
          obtain ⟨ds, hds, rfl, -⟩ := octLoop_octet_iff.mp ⟨digits, hnone, hoct⟩
          have hoctet := hds.octet
          cases tail with
          | nil => simp at h
          | cons b tail =>
              simp only at h
              split_ifs at h with hdot
              subst hdot
              obtain ⟨ns, q, hlen, hq, rfl, hnext, rfl⟩ := ih h
              refine ⟨oct :: ns, ds ++ period :: q, by simp [hlen], .more hds hq, by simp,
                hnext, ?_⟩
              rw [shiftLeft_or v 8 (by omega)]
              rfl

theorem ipOctets_read
    {ns : List ℕ} {q rest : Bytes} (h : OctetsText ns q) (hnext : NoDigitNext rest)
    (v : ℕ) : ipOctets ns.length v (q ++ rest) = some (addrFrom v ns, rest) := by
  induction h generalizing v with
  | @one n s octet =>
      obtain ⟨d, hd, hread⟩ := octLoop_octet_iff.mpr ⟨s, octet, rfl, hnext⟩
      have hoctet := octet.octet
      rw [List.length_singleton, ipOctets, hread]
      simp only [if_neg hd, if_true]
      rw [shiftLeft_or v 8 (by omega)]
      rfl
  | @more n ns s t octet htext ih =>
      have hne : ns.length ≠ 0 := by
        cases htext <;> simp
      have hdot : s ++ period :: t ++ rest = s ++ period :: (t ++ rest) := by simp
      obtain ⟨d, hd, hread⟩ := octLoop_octet_iff.mpr
        ⟨s, octet, rfl, noDigitNext_period (t ++ rest)⟩
      have hoctet := octet.octet
      rw [hdot, List.length_cons, ipOctets, hread]
      simp only [if_neg hd, if_neg hne, if_true]
      rw [shiftLeft_or v 8 (by omega), ih]
      rfl

/-- `parse_ip` reads an address and leaves what is no digit. -/
theorem parseIp_iff {s rest : Bytes} {addr : ℕ} :
    parseIp s = some (addr, rest) ↔
      ∃ q, s = q ++ rest ∧ AddressText q addr ∧ NoDigitNext rest := by
  constructor
  · intro h
    obtain ⟨ns, q, hlen, hq, hs, hnext, haddr⟩ := ipOctets_spec h
    exact ⟨q, hs, ⟨ns, hlen, hq, haddr⟩, hnext⟩
  · rintro ⟨q, rfl, ⟨ns, hlen, hq, rfl⟩, hnext⟩
    have hread := ipOctets_read hq hnext 0
    rwa [hlen] at hread

/-! ## Prefix lengths and masks -/

theorem bitsLoop_spec
    {s rest : Bytes} {acc bits : ℕ} (h : bitsLoop s acc = some (bits, rest)) :
    ∃ ds, s = ds ++ rest ∧ (∀ b ∈ ds, isDigit b = true) ∧ bits = digitsVal acc ds ∧
      (acc ≤ 32 → bits ≤ 32) := by
  induction s generalizing acc with
  | nil =>
      simp only [bitsLoop, Option.some.injEq, Prod.mk.injEq] at h
      obtain ⟨rfl, rfl⟩ := h
      exact ⟨[], rfl, by simp, rfl, id⟩
  | cons b s ih =>
      unfold bitsLoop at h
      split_ifs at h with hdigit hbig
      · obtain ⟨ds, rfl, hds, hbits, hle⟩ := ih h
        refine ⟨b :: ds, rfl, ?_, ?_, ?_⟩
        · simpa [hdigit] using hds
        · rw [hbits]
          simp [digitsVal, hdigit]
        · exact fun _ => hle (by omega)
      · simp only [Option.some.injEq, Prod.mk.injEq] at h
        obtain ⟨rfl, rfl⟩ := h
        exact ⟨[], rfl, by simp, rfl, id⟩

theorem bitsLoop_read
    {ds : Bytes} {acc : ℕ} (hds : ∀ b ∈ ds, isDigit b = true)
    (hval : digitsVal acc ds ≤ 32) : bitsLoop ds acc = some (digitsVal acc ds, []) := by
  induction ds generalizing acc with
  | nil => rfl
  | cons b ds ih =>
      obtain ⟨hb, hds⟩ := List.forall_mem_cons.mp hds
      have hge := digitsVal_ge (acc * 10 + digitVal b) ds
      simp only [digitsVal, hb, if_true] at hval ⊢
      rw [bitsLoop, if_pos hb, if_neg (by omega), ih hds hval]

/-- The digits behind the slash are a numeral of at most 32. -/
theorem bitsLoop_iff {n : Bytes} {bits : ℕ} (hne : n ≠ []) :
    bitsLoop n 0 = some (bits, []) ↔ Numeral n bits ∧ bits ≤ 32 := by
  constructor
  · intro h
    obtain ⟨ds, hds, hall, hval, hle⟩ := bitsLoop_spec h
    rw [List.append_nil] at hds
    subst hds
    exact ⟨⟨hne, hall, hval.symm⟩, hle (by omega)⟩
  · rintro ⟨⟨-, hall, hval⟩, hle⟩
    have hread : bitsLoop n 0 = some (digitsVal 0 n, []) :=
      bitsLoop_read hall (by omega)
    rwa [hval] at hread

/-- The mask keeps the prefix. -/
theorem and_maskOf
    {x bits : ℕ} (hx : x < 2 ^ 32) (hbits : bits ≤ 32) :
    x &&& maskOf bits = x / 2 ^ (32 - bits) * 2 ^ (32 - bits) := by
  have hall : (0xFFFFFFFF : ℕ) = 2 ^ 32 - 1 := by norm_num
  unfold maskOf
  split_ifs with hzero
  · subst hzero
    rw [Nat.div_eq_of_lt hx]
    simp
  · rw [← Nat.shiftRight_eq_div_pow, ← Nat.shiftLeft_eq, hall]
    apply Nat.eq_of_testBit_eq
    intro i
    simp only [Nat.testBit_and, Nat.testBit_shiftLeft, Nat.testBit_shiftRight,
      Nat.testBit_two_pow_sub_one]
    by_cases hi : i < 32
    · by_cases hk : 32 - bits ≤ i
      · have hsum : 32 - bits + (i - (32 - bits)) = i := by omega
        have hlow : i - (32 - bits) < 32 := by omega
        simp [hk, hi, hsum, hlow]
      · simp [hk]
    · have hout : x.testBit i = false :=
        Nat.testBit_lt_two_pow (lt_of_lt_of_le hx
          (Nat.pow_le_pow_right (by norm_num) (by omega)))
      by_cases hk : 32 - bits ≤ i
      · have hsum : 32 - bits + (i - (32 - bits)) = i := by omega
        simp [hi, hsum, hout]
      · simp [hk, hi]

theorem addrFrom_lt {ns : List ℕ} (hns : ∀ n ∈ ns, n ≤ 255) (v : ℕ) :
    addrFrom v ns < (v + 1) * 256 ^ ns.length := by
  induction ns generalizing v with
  | nil => simp [addrFrom]
  | cons n ns ih =>
      obtain ⟨hn, hns⟩ := List.forall_mem_cons.mp hns
      have hle : (v * 256 + n + 1) * 256 ^ ns.length ≤
          (v + 1) * 256 * 256 ^ ns.length :=
        Nat.mul_le_mul_right _ (by omega)
      calc
        addrFrom v (n :: ns) = addrFrom (v * 256 + n) ns := rfl
        _ < (v * 256 + n + 1) * 256 ^ ns.length := ih hns _
        _ ≤ (v + 1) * 256 * 256 ^ ns.length := hle
        _ = (v + 1) * 256 ^ (n :: ns).length := by
          rw [List.length_cons, pow_succ]
          ring

theorem OctetsText.octets
    {ns : List ℕ} {s : Bytes} (h : OctetsText ns s) : ∀ n ∈ ns, n ≤ 255 := by
  induction h with
  | one octet => simpa using octet.octet
  | more octet rest ih => simpa using ⟨octet.octet, ih⟩

theorem AddressText.lt {s : Bytes} {addr : ℕ} (h : AddressText s addr) :
    addr < 2 ^ 32 := by
  obtain ⟨ns, hlen, htext, rfl⟩ := h
  have hlt := addrFrom_lt htext.octets 0
  rw [hlen] at hlt
  simpa using hlt

/-- Addresses agree under the mask when they share the prefix. -/
theorem and_maskOf_inj
    {x y bits : ℕ} (hx : x < 2 ^ 32) (hy : y < 2 ^ 32) (hbits : bits ≤ 32) :
    x &&& maskOf bits = y &&& maskOf bits ↔
      x / 2 ^ (32 - bits) = y / 2 ^ (32 - bits) := by
  rw [and_maskOf hx hbits, and_maskOf hy hbits]
  exact Nat.mul_left_inj (by positivity)

/-! ## Entries -/

theorem parseIp_nil : parseIp [] = none := rfl

/-- The two forms of an entry as `match_entry` finds them. -/
theorem entryMatches_iff {ent : Bytes} {peer : ℕ} :
    EntryMatches ent peer ↔ parseIp ent = some (peer, []) ∨
      ∃ n addr bits, parseIp ent = some (addr, cidrMark :: n) ∧ n ≠ [] ∧
        bitsLoop n 0 = some (bits, []) ∧
        peer / 2 ^ (32 - bits) = addr / 2 ^ (32 - bits) := by
  have hslash : ∀ n, NoDigitNext (cidrMark :: n) := by
    intro n b hb
    obtain rfl : cidrMark = b := by simpa using hb
    rfl
  constructor
  · rintro (haddr | ⟨q, n, addr, bits, rfl, haddr, hn, hle, hshare⟩)
    · exact Or.inl (parseIp_iff.mpr ⟨ent, by simp, haddr, by simp [NoDigitNext]⟩)
    · exact Or.inr ⟨n, addr, bits, parseIp_iff.mpr ⟨q, rfl, haddr, hslash n⟩, hn.1,
        (bitsLoop_iff hn.1).mpr ⟨hn, hle⟩, hshare⟩
  · rintro (hparse | ⟨n, addr, bits, hparse, hne, hbits, hshare⟩)
    · obtain ⟨q, hq, haddr, -⟩ := parseIp_iff.mp hparse
      rw [List.append_nil] at hq
      exact Or.inl (hq ▸ haddr)
    · obtain ⟨q, hq, haddr, -⟩ := parseIp_iff.mp hparse
      obtain ⟨hn, hle⟩ := (bitsLoop_iff hne).mp hbits
      exact Or.inr ⟨q, n, addr, bits, hq, haddr, hn, hle, hshare⟩

theorem parseIp_lt
    {s rest : Bytes} {addr : ℕ} (h : parseIp s = some (addr, rest)) : addr < 2 ^ 32 := by
  obtain ⟨q, -, haddr, -⟩ := parseIp_iff.mp h
  exact haddr.lt

/-- The test for a first digit only spares the loop. -/
theorem bitsLoop_first
    {d : Byte} {p : Bytes} (hd : isDigit d = false) (bits : ℕ) :
    bitsLoop (d :: p) 0 ≠ some (bits, []) := by
  simp [bitsLoop, hd]

theorem matchEntry_network
    {net peer : ℕ} {n : Bytes} (hpeer : peer < 2 ^ 32) (hnet : net < 2 ^ 32) :
    (match n with
      | [] => false
      | d :: _ =>
          if isDigit d then
            match bitsLoop n 0 with
            | some (bits, []) => decide (peer &&& maskOf bits = net &&& maskOf bits)
            | _ => false
          else false) = true ↔
      ∃ bits, n ≠ [] ∧ bitsLoop n 0 = some (bits, []) ∧
        peer / 2 ^ (32 - bits) = net / 2 ^ (32 - bits) := by
  cases n with
  | nil => simp
  | cons d p =>
      by_cases hd : isDigit d = true
      · cases hbits : bitsLoop (d :: p) 0 with
        | none => simp [hd]
        | some res =>
            obtain ⟨bits, rest⟩ := res
            cases rest with
            | cons b rest => simp [hd]
            | nil =>
                obtain ⟨-, hle⟩ := (bitsLoop_iff (by simp)).mp hbits
                simp [hd, and_maskOf_inj hpeer hnet hle]
      · have hno : isDigit d = false := by simpa using hd
        simp [hno, bitsLoop_first hno]

/-- `match_entry` is exact. -/
theorem matchEntry_iff {ent : Bytes} {peer : ℕ} (hpeer : peer < 2 ^ 32) :
    matchEntry ent peer = true ↔ ent.length < 64 ∧ EntryMatches ent peer := by
  rw [entryMatches_iff]
  unfold matchEntry
  by_cases hlen : ent.length = 0 ∨ 64 ≤ ent.length
  · rw [if_pos hlen]
    rcases hlen with hzero | hlong
    · rw [List.length_eq_zero_iff.mp hzero, parseIp_nil]
      simp
    · simp [show ¬ ent.length < 64 by omega]
  · have hshort : ent.length < 64 := by omega
    rw [if_neg hlen]
    cases hparse : parseIp ent with
    | none => simp
    | some res =>
        obtain ⟨net, tail⟩ := res
        have hnet := parseIp_lt hparse
        cases tail with
        | nil => simp [hshort, eq_comm]
        | cons b n =>
            by_cases hb : b = cidrMark
            · subst hb
              have hnetwork := matchEntry_network (n := n) hpeer hnet
              simp only [ne_eq, not_true_eq_false, if_false, hshort, true_and]
              refine hnetwork.trans ?_
              constructor
              · rintro ⟨bits, hne, hbits, hshare⟩
                exact Or.inr ⟨n, net, bits, rfl, hne, hbits, hshare⟩
              · rintro (hparse | ⟨n', addr, bits, hparse, hne, hbits, hshare⟩)
                · simp at hparse
                · simp only [Option.some.injEq, Prod.mk.injEq, List.cons.injEq,
                    true_and] at hparse
                  obtain ⟨rfl, rfl⟩ := hparse
                  exact ⟨bits, hne, hbits, hshare⟩
            · simp [hb]

/-! ## The list -/

/-- The scanner of `acl_allowed` tries every entry. -/
theorem aclLoop_eq
    {peer fuel : ℕ} {s : Bytes} (hfuel : s.length ≤ fuel) :
    aclLoop peer fuel s = (runs isListSep s).any (matchEntry · peer) := by
  induction fuel generalizing s with
  | zero =>
      obtain rfl := List.length_eq_zero_iff.mp (by omega : s.length = 0)
      simp [aclLoop]
  | succ fuel ih =>
      unfold aclLoop
      by_cases hnil : s = []
      · simp [hnil]
      rw [if_neg hnil, runs_eq_scan s]
      simp only
      by_cases hent : (s.dropWhile isListSep).takeWhile (! isListSep ·) = []
      · have hstart : s.dropWhile isListSep = [] := by
          have hhead := head_dropWhile (p := isListSep) s
          cases hdrop : s.dropWhile isListSep with
          | nil => rfl
          | cons b start =>
              have hb : isListSep b = false := hhead b (by simp [hdrop])
              simp [hdrop, hb] at hent
        rw [if_pos hent, hstart, List.dropWhile_nil, ih (s := []) (Nat.zero_le fuel)]
        simp
      · rw [if_neg hent, List.any_cons,
          ih (Nat.lt_succ_iff.mp (lt_of_lt_of_le (scan_shorter hent) hfuel))]
        by_cases hmatch :
            matchEntry ((s.dropWhile isListSep).takeWhile (! isListSep ·)) peer = true
        · simp [hent, hmatch]
        · simp [hmatch]

theorem aclAllowed_eq
    {allow ip : Bytes} {peer : ℕ} (hip : AddressText ip peer) (hne : allow ≠ []) :
    aclAllowed allow ip = (runs isListSep allow).any (matchEntry · peer) := by
  have hparse : parseIp ip = some (peer, []) :=
    parseIp_iff.mpr ⟨ip, by simp, hip, by simp [NoDigitNext]⟩
  unfold aclAllowed
  rw [if_neg hne, hparse]
  exact aclLoop_eq le_rfl

/-- The peer is admitted when the list is empty or an entry matches it, and
by no other list. -/
theorem acl_allowed_iff
    (allow : Bytes) {ip : Bytes} {peer : ℕ} (hip : AddressText ip peer) :
    aclAllowed allow ip = true ↔
      allow = [] ∨ ∃ e, IsEntry e allow ∧ e.length < 64 ∧ EntryMatches e peer := by
  by_cases hnil : allow = []
  · simp [hnil, aclAllowed]
  · simp only [aclAllowed_eq hip hnil, List.any_eq_true, mem_runs_iff_isEntry, hnil, false_or,
      matchEntry_iff hip.lt]

/-- Malformed entries in front of the one that contains the peer. -/
theorem acl_allowed_behind_malformed :
    aclAllowed (ascii "10.1.2.3.4,256.0.0.0 10.0.0.0/33\t10.0.0.0/8") (ascii "10.1.2.003") =
      true := by
  have hip : AddressText (ascii "10.1.2.003") 0x0A010203 := by
    obtain ⟨q, hq, haddr, -⟩ := parseIp_iff.mp
      (by decide +kernel : parseIp (ascii "10.1.2.003") = some (0x0A010203, []))
    rw [List.append_nil] at hq
    exact hq ▸ haddr
  refine (acl_allowed_iff _ hip).mpr (Or.inr ⟨ascii "10.0.0.0/8", ?_, by decide +kernel, ?_⟩)
  · exact ⟨ascii "10.1.2.3.4,256.0.0.0 10.0.0.0/33\t", [], by decide +kernel,
      by decide +kernel, by decide +kernel, by decide +kernel, by decide +kernel⟩
  · exact (matchEntry_iff hip.lt).mp (by decide +kernel) |>.2

end GrandCross
