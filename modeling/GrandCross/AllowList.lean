import GrandCross.AclMatch

/-!
# The allow list as written

The allow line of a configuration file, its entries and the addresses an entry
contains are described on the text of the file.  A peer that is admitted is in
an entry of the first allow line, as long as the line is not empty and fits
the table it is copied to.
-/

namespace GrandCross

open CText

/-! ## Addresses and entries -/

/-- Decimal octets with periods between them. -/
inductive Dotted : List ℕ → Bytes → Prop where
  | one {n : ℕ} {s : Bytes} (num : Numeral s n) (octet : n ≤ 255) : Dotted [n] s
  | more {n : ℕ} {ns : List ℕ} {s t : Bytes} (num : Numeral s n) (octet : n ≤ 255)
      (rest : Dotted ns t) : Dotted (n :: ns) (s ++ period :: t)

/-- The text of an IPv4 address. -/
def Quad (s : Bytes) (addr : ℕ) : Prop :=
  ∃ octets, octets.length = 4 ∧ Dotted octets s ∧ addr = addrFrom 0 octets

/-- An address contains itself; a network contains the addresses that share
its prefix. -/
def EntryHas (entry : Bytes) (peer : ℕ) : Prop :=
  Quad entry peer ∨
    ∃ q n addr bits, entry = q ++ cidrMark :: n ∧ Quad q addr ∧ Numeral n bits ∧
      bits ≤ 32 ∧ peer / 2 ^ (32 - bits) = addr / 2 ^ (32 - bits)

/-! ## What `acl.c` matches -/

theorem OctetsText.dotted
    {ns : List ℕ} {s : Bytes} (h : OctetsText ns s) : Dotted ns s := by
  induction h with
  | one octet => exact .one octet.num octet.octet
  | more octet rest ih => exact .more octet.num octet.octet ih

theorem AddressText.quad {s : Bytes} {addr : ℕ} (h : AddressText s addr) : Quad s addr := by
  obtain ⟨ns, hlen, htext, haddr⟩ := h
  exact ⟨ns, hlen, htext.dotted, haddr⟩

theorem EntryMatches.has
    {entry : Bytes} {peer : ℕ} (h : EntryMatches entry peer) : EntryHas entry peer := by
  rcases h with haddr | ⟨q, n, addr, bits, hentry, haddr, hn, hle, hshare⟩
  · exact Or.inl haddr.quad
  · exact Or.inr ⟨q, n, addr, bits, hentry, haddr.quad, hn, hle, hshare⟩

/-! ## The peer's address -/

def peerAddr (a b c d : Byte) : ℕ :=
  addrFrom 0 [a.toNat, b.toNat, c.toNat, d.toNat]

theorem octetText_decimal (b : Byte) : OctetText (decimal b.toNat) b.toNat where
  num := by
    refine ⟨decimal_ne_nil _, ?_, digitsVal_decimal _⟩
    intro c hc
    obtain ⟨d, hd, rfl⟩ := exists_digit_of_mem_decimal hc
    exact (digit_props d hd).1
  short := decimal_length_le (by omega) (by have hb := b.toNat_lt; omega)
  octet := by
    have hb := b.toNat_lt
    omega

/-- `inet_ntoa` writes an address that `acl.c` reads back. -/
theorem addressText_inetNtoa (a b c d : Byte) :
    AddressText (inetNtoa a b c d) (peerAddr a b c d) :=
  ⟨[a.toNat, b.toNat, c.toNat, d.toNat], rfl,
    .more (octetText_decimal a) (.more (octetText_decimal b)
      (.more (octetText_decimal c) (.one (octetText_decimal d)))), rfl⟩

/-! ## The allow line -/

theorem isEndBlank_of_isBlank {b : Byte} (h : isBlank b = true) :
    isEndBlank b = true := by
  simp only [isBlank, isEndBlank, decide_eq_true_eq] at h ⊢
  tauto

theorem rdropWhile_append_all
    {p : Byte → Bool} {back : Bytes} (hback : ∀ b ∈ back, p b = true) (l : Bytes) :
    (l ++ back).rdropWhile p = l.rdropWhile p := by
  unfold List.rdropWhile
  rw [List.reverse_append, List.dropWhile_append_of_pos]
  intro b hb
  exact hback b (List.mem_reverse.mp hb)

theorem dropWhile_eq_self_of_head
    {p : Byte → Bool} {l : Bytes} (h : ∀ b ∈ l.head?, p b = false) :
    l.dropWhile p = l := by
  cases l with
  | nil => rfl
  | cons b l => simp [h b rfl]

theorem rdropWhile_eq_self_of_last
    {p : Byte → Bool} {l : Bytes} (h : ∀ b ∈ l.getLast?, p b = false) :
    l.rdropWhile p = l := by
  unfold List.rdropWhile
  rw [dropWhile_eq_self_of_head, List.reverse_reverse]
  intro b hb
  rw [List.head?_reverse] at hb
  exact h b hb

theorem last_rdropWhile
    {p : Byte → Bool} (l : Bytes) : ∀ b ∈ (l.rdropWhile p).getLast?, p b = false := by
  intro b hb
  unfold List.rdropWhile at hb
  rw [List.getLast?_reverse] at hb
  exact Runs.head_dropWhile _ b hb

/-- `trim` takes blanks away at both ends. -/
theorem trim_eq_iff {s t : Bytes} :
    trim s = t ↔ ∃ front back, s = front ++ (t ++ back) ∧
      (∀ b ∈ front, isBlank b = true) ∧ (∀ b ∈ back, isEndBlank b = true) ∧
      (∀ b ∈ t.head?, isBlank b = false) ∧ ∀ b ∈ t.getLast?, isEndBlank b = false := by
  constructor
  · rintro rfl
    refine ⟨(s.rdropWhile isEndBlank).takeWhile isBlank, s.rtakeWhile isEndBlank,
      ?_, ?_, ?_, ?_, ?_⟩
    · rw [trim, ← List.append_assoc, List.takeWhile_append_dropWhile,
        List.rdropWhile_append_rtakeWhile]
    · exact fun b hb => List.mem_takeWhile_imp hb
    · exact fun b hb => List.mem_rtakeWhile_imp hb
    · exact Runs.head_dropWhile _
    · intro b hb
      unfold trim at hb
      obtain ⟨front, hfront⟩ :=
        List.dropWhile_suffix (l := s.rdropWhile isEndBlank) isBlank
      have hlast : b ∈ (s.rdropWhile isEndBlank).getLast? := by
        rw [← hfront, List.getLast?_append, Option.mem_def.mp hb]
        rfl
      exact last_rdropWhile s b hlast
  · rintro ⟨front, back, rfl, hfront, hback, hhead, hlast⟩
    unfold trim
    rw [← List.append_assoc, rdropWhile_append_all hback]
    by_cases hnil : t = []
    · subst hnil
      have hall := rdropWhile_append_all (l := [])
        fun b hb => isEndBlank_of_isBlank (hfront b hb)
      rw [List.append_nil, ← List.nil_append front, hall]
      rfl
    · have hkeep : (front ++ t).rdropWhile isEndBlank = front ++ t := by
        apply rdropWhile_eq_self_of_last
        intro b hb
        obtain ⟨c, u, rfl⟩ := List.exists_cons_of_ne_nil hnil
        rw [List.getLast?_append_cons] at hb
        exact hlast b hb
      rw [hkeep, List.dropWhile_append_of_pos fun b hb => hfront b hb,
        dropWhile_eq_self_of_head hhead]

/-- `allow = value` with blanks around the key and the value. -/
def AllowLine (line value : Bytes) : Prop :=
  ∃ w₁ w₂ w₃ w₄,
    line = w₁ ++ (ascii "allow" ++ (w₂ ++ equals :: (w₃ ++ (value ++ w₄)))) ∧
    (∀ b ∈ w₁ ++ w₃, isBlank b = true) ∧ (∀ b ∈ w₂ ++ w₄, isEndBlank b = true) ∧
    (∀ b ∈ value.head?, isBlank b = false) ∧
    ∀ b ∈ value.getLast?, isEndBlank b = false

theorem allowLine_of_confEntry
    {line value : Bytes} (h : confEntry line = some (ascii "allow", value)) :
    AllowLine line value := by
  unfold confEntry at h
  simp only at h
  split_ifs at h with hskip
  cases hcut : cutAt equals (trim line) with
  | mk key rest =>
      cases rest with
      | none => simp [hcut] at h
      | some val =>
          simp only [hcut] at h
          split_ifs at h with hkey
          simp only [Option.some.injEq, Prod.mk.injEq] at h
          have hjoin := cutAt_join equals (trim line)
          rw [hcut] at hjoin
          obtain ⟨f₁, b₁, hline, hf₁, hb₁, -, -⟩ := (trim_eq_iff (s := line)).mp rfl
          obtain ⟨f₂, b₂, hkeyw, hf₂, hb₂, -, -⟩ := trim_eq_iff.mp h.1
          obtain ⟨f₃, b₃, hvalw, hf₃, hb₃, hhead, hlast⟩ := trim_eq_iff.mp h.2
          refine ⟨f₁ ++ f₂, b₂, f₃, b₃ ++ b₁, ?_, ?_, ?_, hhead, hlast⟩
          · rw [hline, hjoin]
            simp only [hkeyw, hvalw, List.append_assoc, List.cons_append]
          · intro b hb
            simp only [List.mem_append] at hb
            rcases hb with (hb | hb) | hb
            · exact hf₁ b hb
            · exact hf₂ b hb
            · exact hf₃ b hb
          · intro b hb
            simp only [List.mem_append] at hb
            rcases hb with hb | hb | hb
            · exact hb₂ b hb
            · exact hb₃ b hb
            · exact hb₁ b hb

/-- The front of an allow line is cut off, and its end behind the value. -/
theorem trim_allow
    {w₁ w₂ back : Bytes} (hw₁ : ∀ b ∈ w₁, isBlank b = true) :
    trim (w₁ ++ (ascii "allow" ++ (w₂ ++ equals :: back))) =
      (ascii "allow" ++ w₂) ++ equals :: back.rdropWhile isEndBlank := by
  refine trim_eq_iff.mpr ⟨w₁, back.rtakeWhile isEndBlank, ?_, hw₁,
    fun b hb => List.mem_rtakeWhile_imp hb, ?_, ?_⟩
  · simp only [List.append_assoc, List.cons_append]
    rw [List.rdropWhile_append_rtakeWhile]
  · intro b hb
    have hfirst : b = 97 := by simpa [ascii] using hb.symm
    subst hfirst
    decide
  · intro b hb
    rw [List.getLast?_append_cons] at hb
    cases hcore : back.rdropWhile isEndBlank with
    | nil =>
        rw [hcore] at hb
        have hlast : b = equals := by simpa using hb.symm
        subst hlast
        decide
    | cons c core =>
        have hne : back.rdropWhile isEndBlank ≠ [] := by
          simp [hcore]
        rw [List.getLast?_cons_of_ne_nil hne] at hb
        exact last_rdropWhile back b hb

theorem confEntry_of_allowLine
    {line value : Bytes} (h : AllowLine line value) :
    confEntry line = some (ascii "allow", value) := by
  obtain ⟨w₁, w₂, w₃, w₄, rfl, hblank, hend, hhead, hlast⟩ := h
  have hw₁ : ∀ b ∈ w₁, isBlank b = true := fun b hb => hblank b (by simp [hb])
  have hw₃ : ∀ b ∈ w₃, isBlank b = true := fun b hb => hblank b (by simp [hb])
  have hw₂ : ∀ b ∈ w₂, isEndBlank b = true := fun b hb => hend b (by simp [hb])
  have hw₄ : ∀ b ∈ w₄, isEndBlank b = true := fun b hb => hend b (by simp [hb])
  have hval : trim (w₃ ++ (value ++ w₄)) = value :=
    trim_eq_iff.mpr ⟨w₃, w₄, rfl, hw₃, hw₄, hhead, hlast⟩
  have hkey : trim (ascii "allow" ++ w₂) = ascii "allow" :=
    trim_eq_iff.mpr ⟨[], w₂, rfl, by simp, hw₂, by rintro b ⟨⟩; rfl, by rintro b ⟨⟩; rfl⟩
  have hnoeq : equals ∉ ascii "allow" ++ w₂ := by
    intro hmem
    rcases List.mem_append.mp hmem with hmem | hmem
    · revert hmem
      decide
    · exact absurd (hw₂ equals hmem) (by decide)
  have hrest : trim ((w₃ ++ (value ++ w₄)).rdropWhile isEndBlank) = value := by
    refine Eq.trans ?_ hval
    unfold trim
    rw [List.rdropWhile_idempotent]
  have hskip : ¬ (ascii "allow" ++ w₂ ++
      equals :: (w₃ ++ (value ++ w₄)).rdropWhile isEndBlank = [] ∨
      (ascii "allow" ++ w₂ ++
        equals :: (w₃ ++ (value ++ w₄)).rdropWhile isEndBlank).head? =
          some hash) := by
    simp [ascii, hash]
  have hallow : ¬ ascii "allow" = [] := by decide
  unfold confEntry
  simp only [trim_allow hw₁, cutAt_append_cons hnoeq, hkey, hrest]
  rw [if_neg hskip, if_neg hallow]

theorem confEntry_allow_iff {line value : Bytes} :
    confEntry line = some (ascii "allow", value) ↔ AllowLine line value :=
  ⟨allowLine_of_confEntry, confEntry_of_allowLine⟩

/-! ## The lines of the file -/

theorem trim_append_lf (line : Bytes) : trim (line ++ [lf]) = trim line := by
  unfold trim
  rw [rdropWhile_append_all (List.all_eq_true.mp rfl)]

theorem confEntry_append_lf (line : Bytes) :
    confEntry (line ++ [lf]) = confEntry line := by
  unfold confEntry
  rw [trim_append_lf]

/-- The entries of the lines, before they are cut to the table. -/
def entriesOf (file : Bytes) : List (Bytes × Bytes) :=
  (linesOf file).filterMap confEntry

theorem entriesOf_line
    {line rest : Bytes} (hline : lf ∉ line) :
    entriesOf (line ++ lf :: rest) = (confEntry line).toList ++ entriesOf rest := by
  unfold entriesOf
  rw [linesOf_line hline, List.filterMap_cons]
  cases confEntry line <;> rfl

theorem entriesOf_last {line : Bytes} (hline : lf ∉ line) :
    entriesOf line = (confEntry line).toList := by
  unfold entriesOf
  rw [linesOf_last hline, List.filterMap_cons]
  cases confEntry line <;> rfl

theorem entriesOf_nil : entriesOf [] = [] := rfl

theorem fileFirstLine (file : Bytes) :
    lf ∉ file.takeWhile (· ≠ lf) ∧
      (file.dropWhile (· ≠ lf) = [] ∨ ∃ more, file.dropWhile (· ≠ lf) = lf :: more) := by
  constructor
  · intro hmem
    have hne := List.mem_takeWhile_imp hmem
    simp at hne
  · cases hdrop : file.dropWhile (· ≠ lf) with
    | nil => exact Or.inl rfl
    | cons b more =>
        have hnot := List.head?_dropWhile_not (· ≠ lf) file
        rw [hdrop] at hnot
        have hb : b = lf := by simpa using hnot
        exact Or.inr ⟨more, by rw [hb]⟩

/-- What one `fgets` took of a file: something, with the entry of one line at
most, from lines that stay short. -/
structure TookEntry (file got rest : Bytes) : Prop where
  shorter : rest.length < file.length
  whole : got ++ rest = file
  entries : entriesOf file = (confEntry got).toList ++ entriesOf rest
  lines : ∀ line ∈ linesOf rest, line.length ≤ 1023

theorem TookEntry.last
    {line : Bytes} (hline : lf ∉ line) (hne : line ≠ []) : TookEntry line line [] where
  shorter := List.length_pos_of_ne_nil hne
  whole := List.append_nil line
  entries := by rw [entriesOf_last hline, entriesOf_nil, List.append_nil]
  lines := by simp [linesOf]

theorem TookEntry.line
    {line more : Bytes} (hline : lf ∉ line)
    (hmore : ∀ l ∈ linesOf more, l.length ≤ 1023) :
    TookEntry (line ++ lf :: more) (line ++ [lf]) more where
  shorter := by
    simp only [List.length_append, List.length_cons]
    omega
  whole := by simp
  entries := by rw [entriesOf_line hline, confEntry_append_lf]
  lines := hmore

/-- A line that fills the buffer leaves its line feed behind, which has no
entry. -/
theorem TookEntry.full
    {line more : Bytes} (hline : lf ∉ line) (hne : line ≠ [])
    (hmore : ∀ l ∈ linesOf more, l.length ≤ 1023) :
    TookEntry (line ++ lf :: more) line (lf :: more) where
  shorter := by
    have hpos := List.length_pos_of_ne_nil hne
    rw [List.length_append]
    omega
  whole := rfl
  entries := by
    have hempty : entriesOf (lf :: more) = entriesOf more :=
      entriesOf_line (List.not_mem_nil : lf ∉ [])
    rw [entriesOf_line hline, hempty]
  lines := by
    have hlf : linesOf (lf :: more) = [] :: linesOf more :=
      linesOf_line (List.not_mem_nil : lf ∉ [])
    rw [hlf]
    simpa using hmore

theorem fgets_entry
    {file : Bytes} (hne : file ≠ [])
    (hlines : ∀ line ∈ linesOf file, line.length ≤ 1023) :
    TookEntry file (fgets 1024 file).1 (fgets 1024 file).2 := by
  obtain ⟨hline, hcase⟩ := fileFirstLine file
  have hfile : file.takeWhile (· ≠ lf) ++ file.dropWhile (· ≠ lf) = file :=
    List.takeWhile_append_dropWhile
  unfold fgets
  simp only
  generalize file.takeWhile (· ≠ lf) = line at *
  generalize file.dropWhile (· ≠ lf) = rest at *
  subst hfile
  rcases hcase with rfl | ⟨more, rfl⟩
  · rw [List.append_nil] at hlines hne ⊢
    have hshort : line.length ≤ 1023 := by
      apply hlines line
      rw [linesOf_last hline]
      simp
    have hall : ∀ n, line.length ≤ n → TookEntry line (line.take n) (line.drop n) := by
      intro n hn
      rw [List.take_of_length_le hn, List.drop_of_length_le hn]
      exact TookEntry.last hline hne
    split_ifs
    · exact hall _ (by omega)
    · exact hall _ (by omega)
  · rw [linesOf_line hline] at hlines
    have hshort : line.length ≤ 1023 := hlines line (by simp)
    have hmore : ∀ l ∈ linesOf more, l.length ≤ 1023 := fun l hl =>
      hlines l (by simp [hl])
    split_ifs with hfits
    · have htake : (line ++ lf :: more).take (line.length + 1) = line ++ [lf] := by
        rw [List.take_append]
        simp
      have hdrop : (line ++ lf :: more).drop (line.length + 1) = more := by
        rw [List.drop_append]
        simp
      rw [htake, hdrop]
      exact TookEntry.line hline hmore
    · have hfull : line.length = 1024 - 1 := by omega
      have hnonempty : line ≠ [] := List.length_pos_iff.mp (by omega)
      rw [← hfull, List.take_left, List.drop_left]
      exact TookEntry.full hline hnonempty hmore

theorem confLoop_eq
    {fuel room : ℕ} {file : Bytes} (hfuel : file.length < fuel) (hnul : nul ∉ file)
    (hlines : ∀ line ∈ linesOf file, line.length ≤ 1023) :
    confLoop fuel room file = ((entriesOf file).take room).map storeKv := by
  induction fuel generalizing room file with
  | zero => omega
  | succ fuel ih =>
      unfold confLoop
      by_cases hroom : room = 0
      · simp [hroom]
      by_cases hne : file = []
      · subst hne
        simp [entriesOf_nil]
      have htook := fgets_entry hne hlines
      have hnul₁ : nul ∉ (fgets 1024 file).1 := by
        intro hmem
        exact hnul (htook.whole ▸ List.mem_append_left _ hmem)
      have hnul₂ : nul ∉ (fgets 1024 file).2 := by
        intro hmem
        exact hnul (htook.whole ▸ List.mem_append_right _ hmem)
      rw [if_neg (by tauto), cstr_eq_self hnul₁, htook.entries]
      have hshort := htook.shorter
      cases confEntry (fgets 1024 file).1 with
      | none => exact ih (by omega) hnul₂ htook.lines
      | some e =>
          obtain ⟨left, rfl⟩ := Nat.exists_eq_succ_of_ne_zero hroom
          simp only [Option.toList_some, List.singleton_append, List.take_succ_cons,
            List.map_cons, Nat.succ_eq_add_one, Nat.add_sub_cancel]
          rw [ih (by omega) hnul₂ htook.lines]

theorem storeKv_key_ne
    {e : Bytes × Bytes} (h : e.1 ≠ ascii "allow") : (storeKv e).key ≠ ascii "allow" := by
  intro heq
  have hkey : e.1.take 63 = ascii "allow" := heq
  have hlen := congrArg List.length hkey
  rw [List.length_take] at hlen
  have hfive : (ascii "allow").length = 5 := rfl
  rw [List.take_of_length_le (by omega)] at hkey
  exact h hkey

/-- The value of the first allow line reaches `g_allow` whole if the line is in
the table and the value fits its entry. -/
theorem confGet_allow
    {file line value : Bytes} {maxkv : ℕ} {before after : List Bytes}
    (hnul : nul ∉ file) (hlines : ∀ l ∈ linesOf file, l.length ≤ 1023)
    (hfile : linesOf file = before ++ line :: after)
    (hfirst : ∀ l ∈ before, ∀ v, ¬ AllowLine l v) (hallow : AllowLine line value)
    (hroom : (before.filterMap confEntry).length < maxkv)
    (hfits : value.length < confValMax) :
    confGet (confLoad file maxkv) (ascii "allow") = some value := by
  have hentries : entriesOf file = before.filterMap confEntry ++
      (ascii "allow", value) :: after.filterMap confEntry := by
    unfold entriesOf
    rw [hfile, List.filterMap_append, List.filterMap_cons,
      confEntry_allow_iff.mpr hallow]
  have hearlier : ∀ kv ∈ (before.filterMap confEntry).map storeKv,
      kv.key ≠ ascii "allow" := by
    intro kv hkv
    obtain ⟨e, he, rfl⟩ := List.mem_map.mp hkv
    obtain ⟨l, hl, hentry⟩ := List.mem_filterMap.mp he
    apply storeKv_key_ne
    intro hkey
    refine hfirst l hl e.2 (confEntry_allow_iff.mp ?_)
    rw [hentry, ← hkey]
  have hstored : storeKv (ascii "allow", value) = ⟨ascii "allow", value⟩ := by
    have hval : value.take (confValMax - 1) = value :=
      List.take_of_length_le (by omega)
    simp only [storeKv, gcdsStrlcpy, hval]
    rfl
  obtain ⟨more, hmore⟩ : ∃ more, maxkv - (before.filterMap confEntry).length =
      more + 1 := ⟨maxkv - (before.filterMap confEntry).length - 1, by omega⟩
  unfold confLoad confGet
  rw [confLoop_eq (by omega) hnul hlines, hentries, List.take_append, hmore,
    List.take_of_length_le (by omega), List.take_succ_cons, List.map_append,
    List.map_cons, hstored, List.find?_append]
  have hnone : ((before.filterMap confEntry).map storeKv).find?
      (·.key = ascii "allow") = none := by
    rw [List.find?_eq_none]
    intro kv hkv
    simpa using hearlier kv hkv
  rw [hnone]
  simp

/-- The first allow line of a text file, when it is in the table and its value
fits: an empty value admits everyone, any other only the peers of its
entries. -/
theorem allow_list_enforced
    {file line value : Bytes} {maxkv : ℕ} {before after : List Bytes}
    (hnul : nul ∉ file) (hlines : ∀ l ∈ linesOf file, l.length ≤ 1023)
    (hfile : linesOf file = before ++ line :: after)
    (hfirst : ∀ l ∈ before, ∀ v, ¬ AllowLine l v) (hallow : AllowLine line value)
    (hroom : (before.filterMap confEntry).length < maxkv)
    (hfits : value.length < confValMax) (a b c d : Byte) :
    (value = [] → sessionPeerOk file maxkv (inetNtoa a b c d) = true) ∧
      (value ≠ [] → sessionPeerOk file maxkv (inetNtoa a b c d) = true →
        ∃ e, IsEntry e value ∧ EntryHas e (peerAddr a b c d)) := by
  have hget := confGet_allow hnul hlines hfile hfirst hallow hroom hfits
  have hset : sessionSetAcl (some value) = value := by
    have hsmall : value.length ≤ allowBuf - 1 := by
      unfold confValMax at hfits
      unfold allowBuf
      omega
    exact List.take_of_length_le hsmall
  unfold sessionPeerOk
  rw [hget, hset]
  constructor
  · rintro rfl
    rfl
  · intro hne hok
    have haddr := addressText_inetNtoa a b c d
    rw [aclAllowed_eq haddr hne, List.any_eq_true] at hok
    obtain ⟨e, hentry, hmatch⟩ := hok
    exact ⟨e, mem_runs_iff_isEntry.mp hentry, ((matchEntry_iff haddr.lt).mp hmatch).2.has⟩

def oneNetwork : Bytes := ascii "allow = 10.0.0.0/24"

/-- A peer of the network. -/
theorem allow_list_enforced_network :
    ∃ e, IsEntry e (ascii "10.0.0.0/24") ∧ EntryHas e (peerAddr 10 0 0 7) := by
  have hfile : linesOf oneNetwork = [] ++ oneNetwork :: [] := by decide
  have hallow : AllowLine oneNetwork (ascii "10.0.0.0/24") :=
    ⟨[], [sp], [sp], [], rfl, List.all_eq_true.mp rfl, List.all_eq_true.mp rfl,
      by rintro b ⟨⟩; rfl, by rintro b ⟨⟩; rfl⟩
  have hroom : (([] : List Bytes).filterMap confEntry).length < confEntMax := by decide
  apply (allow_list_enforced (by decide) (by decide) hfile (by simp) hallow hroom
    (by decide) 10 0 0 7).2
  · decide
  · decide +kernel

/-- An allow line without a value admits every peer. -/
theorem empty_allow_line_admits :
    AllowLine (ascii "allow =") [] ∧ ascii "allow =" ∈ linesOf (ascii "allow =") ∧
      sessionPeerOk (ascii "allow =") confEntMax (inetNtoa 10 0 0 7) = true ∧
      ¬ ∃ e, IsEntry e [] ∧ EntryHas e (peerAddr 10 0 0 7) := by
  have hallow : AllowLine (ascii "allow =") [] :=
    ⟨[], [sp], [], [], rfl, List.all_eq_true.mp rfl, List.all_eq_true.mp rfl,
      by simp, by simp⟩
  refine ⟨hallow, by decide, by decide +kernel, ?_⟩
  rintro ⟨e, ⟨before, after, hnil, hne, -⟩, -⟩
  simp at hnil
  exact hne hnil.2.1

end GrandCross