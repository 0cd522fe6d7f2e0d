import GrandCross.AllowList
import GrandCross.LinePieces

/-!
# The configuration table as written

`conf_load` reads the lines of its file in pieces of at most 1023 bytes and
keeps the first entries.  A lookup finds the first of them whose key, cut to
the table, is the key asked for, and a table that is written out again loads as
the table it was.
-/

namespace GrandCross

open CText

/-! ## Entries on the text of a line -/

/-- A key that `conf_load` reads back as it stands. -/
structure KeyText (key : Bytes) : Prop where
  ne : key ≠ []
  noeq : equals ∉ key
  nohash : key.head? ≠ some hash
  trimmed : trim key = key

/-- `key = value`, with blanks around both. -/
def EntryLine (line key value : Bytes) : Prop :=
  KeyText key ∧ trim value = value ∧
    ∃ w₁ w₂ w₃ w₄,
      line = w₁ ++ (key ++ (w₂ ++ equals :: (w₃ ++ (value ++ w₄)))) ∧
      (∀ b ∈ w₁ ++ w₃, isBlank b = true) ∧ ∀ b ∈ w₂ ++ w₄, isEndBlank b = true

theorem trim_eq_self_iff {s : Bytes} :
    trim s = s ↔ (∀ b ∈ s.head?, isBlank b = false) ∧
      ∀ b ∈ s.getLast?, isEndBlank b = false := by
  constructor
  · intro h
    obtain ⟨-, -, -, -, -, hhead, hlast⟩ := trim_eq_iff.mp h
    exact ⟨hhead, hlast⟩
  · rintro ⟨hhead, hlast⟩
    exact trim_eq_iff.mpr ⟨[], [], by simp, by simp, by simp, hhead, hlast⟩

@[simp] theorem trim_trim (s : Bytes) : trim (trim s) = trim s := by
  obtain ⟨-, -, -, -, -, hhead, hlast⟩ := (trim_eq_iff (s := s)).mp rfl
  exact trim_eq_self_iff.mpr ⟨hhead, hlast⟩

theorem trim_rdropWhile (s : Bytes) : trim (s.rdropWhile isEndBlank) = trim s := by
  unfold trim
  rw [List.rdropWhile_idempotent]

theorem cutAt_fst_notMem (sep : Byte) (s : Bytes) : sep ∉ (cutAt sep s).1 := by
  induction s with
  | nil => simp [cutAt]
  | cons b s ih =>
      by_cases hb : b = sep
      · simp [cutAt, hb]
      · simp only [cutAt, hb, if_false, List.mem_cons, not_or]
        exact ⟨Ne.symm hb, ih⟩

theorem entryLine_of_confEntry
    {line key value : Bytes} (h : confEntry line = some (key, value)) :
    EntryLine line key value := by
  unfold confEntry at h
  simp only at h
  split_ifs at h with hskip
  cases hcut : cutAt equals (trim line) with
  | mk text rest =>
      cases rest with
      | none => simp [hcut] at h
      | some val =>
          simp only [hcut] at h
          split_ifs at h with hkey
          simp only [Option.some.injEq, Prod.mk.injEq] at h
          obtain ⟨rfl, rfl⟩ := h
          have hjoin := cutAt_join equals (trim line)
          rw [hcut] at hjoin
          simp only at hjoin
          have hnoeq : equals ∉ text := by
            have hmem := cutAt_fst_notMem equals (trim line)
            rwa [hcut] at hmem
          obtain ⟨f₁, b₁, hline, hf₁, hb₁, hhead, -⟩ := (trim_eq_iff (s := line)).mp rfl
          obtain ⟨f₂, b₂, htext, hf₂, hb₂, -, -⟩ := (trim_eq_iff (s := text)).mp rfl
          obtain ⟨f₃, b₃, hval, hf₃, hb₃, -, -⟩ := (trim_eq_iff (s := val)).mp rfl
          -- The line was trimmed before it was cut, so its key has no blank in front.
          have hfront : f₂ = [] := by
            cases f₂ with
            | nil => rfl
            | cons b f₂ =>
                have hblank := hf₂ b (by simp)
                have hnot := hhead b (by rw [hjoin, htext]; rfl)
                rw [hblank] at hnot
                exact absurd hnot (by simp)
          rw [hfront, List.nil_append] at htext
          have hfirst : (trim line).head? = (trim text).head? := by
            obtain ⟨b, k, hk⟩ := List.exists_cons_of_ne_nil hkey
            rw [hjoin]
            conv_lhs => rw [htext, hk]
            rw [hk]
            rfl
          refine ⟨⟨hkey, ?_, ?_, trim_trim text⟩, trim_trim val, f₁, b₂, f₃, b₃ ++ b₁, ?_,
            ?_, ?_⟩
          · intro hmem
            exact hnoeq (htext ▸ List.mem_append_left _ hmem)
          · rw [← hfirst]
            exact fun hhash => hskip (Or.inr hhash)
          · calc line = f₁ ++ (trim line ++ b₁) := hline
              _ = f₁ ++ (text ++ equals :: val ++ b₁) := by rw [← hjoin]
              _ = f₁ ++ ((trim text ++ b₂) ++ equals :: (f₃ ++ (trim val ++ b₃)) ++ b₁) := by
                  rw [← htext, ← hval]
              _ = _ := by simp only [List.append_assoc, List.cons_append]
          · intro b hb
            rcases List.mem_append.mp hb with hb | hb
            · exact hf₁ b hb
            · exact hf₃ b hb
          · intro b hb
            simp only [List.mem_append] at hb
            rcases hb with hb | hb | hb
            · exact hb₂ b hb
            · exact hb₃ b hb
            · exact hb₁ b hb

/-- The front of an entry line is cut off, and its end behind the value. -/
theorem trim_entry
    {key w₁ w₂ back : Bytes} (hkey : KeyText key) (hw₁ : ∀ b ∈ w₁, isBlank b = true) :
    trim (w₁ ++ (key ++ (w₂ ++ equals :: back))) =
      (key ++ w₂) ++ equals :: back.rdropWhile isEndBlank := by
  refine trim_eq_iff.mpr ⟨w₁, back.rtakeWhile isEndBlank, ?_, hw₁,
    fun b hb => List.mem_rtakeWhile_imp hb, ?_, ?_⟩
  · simp only [List.append_assoc, List.cons_append]
    rw [List.rdropWhile_append_rtakeWhile]
  · intro b hb
    apply (trim_eq_self_iff.mp hkey.trimmed).1
    obtain ⟨c, k, rfl⟩ := List.exists_cons_of_ne_nil hkey.ne
    simpa using hb
  · intro b hb
    rw [List.getLast?_append_cons] at hb
    cases hcore : back.rdropWhile isEndBlank with
    | nil =>
        rw [hcore] at hb
        have hlast : b = equals := by simpa using hb.symm
        subst hlast
        decide
    | cons c core =>
        have hne : back.rdropWhile isEndBlank ≠ [] := by
          simp [hcore]
        rw [List.getLast?_cons_of_ne_nil hne] at hb
        exact last_rdropWhile back b hb

theorem confEntry_of_entryLine
    {line key value : Bytes} (h : EntryLine line key value) :
    confEntry line = some (key, value) := by
  obtain ⟨hkey, hvalue, w₁, w₂, w₃, w₄, rfl, hblank, hend⟩ := h
  have hw₁ : ∀ b ∈ w₁, isBlank b = true := fun b hb => hblank b (by simp [hb])
  have hw₃ : ∀ b ∈ w₃, isBlank b = true := fun b hb => hblank b (by simp [hb])
  have hw₂ : ∀ b ∈ w₂, isEndBlank b = true := fun b hb => hend b (by simp [hb])
  have hw₄ : ∀ b ∈ w₄, isEndBlank b = true := fun b hb => hend b (by simp [hb])
  obtain ⟨hhead, hlast⟩ := trim_eq_self_iff.mp hvalue
  obtain ⟨hkhead, hklast⟩ := trim_eq_self_iff.mp hkey.trimmed
  have hval : trim ((w₃ ++ (value ++ w₄)).rdropWhile isEndBlank) = value := by
    rw [trim_rdropWhile]
    exact trim_eq_iff.mpr ⟨w₃, w₄, rfl, hw₃, hw₄, hhead, hlast⟩
  have htext : trim (key ++ w₂) = key :=
    trim_eq_iff.mpr ⟨[], w₂, rfl, by simp, hw₂, hkhead, hklast⟩
  have hnoeq : equals ∉ key ++ w₂ := by
    intro hmem
    rcases List.mem_append.mp hmem with hmem | hmem
    · exact hkey.noeq hmem
    · exact absurd (hw₂ equals hmem) (by decide)
  have hskip : ¬ (key ++ w₂ ++ equals :: (w₃ ++ (value ++ w₄)).rdropWhile isEndBlank = [] ∨
      (key ++ w₂ ++ equals :: (w₃ ++ (value ++ w₄)).rdropWhile isEndBlank).head? =
        some hash) := by
    have hhash := hkey.nohash
    obtain ⟨c, k, rfl⟩ := List.exists_cons_of_ne_nil hkey.ne
    simpa using hhash
  unfold confEntry
  simp only [trim_entry hkey hw₁, cutAt_append_cons hnoeq, htext, hval]
  rw [if_neg hskip, if_neg hkey.ne]

theorem confEntry_eq_some_iff {line key value : Bytes} :
    confEntry line = some (key, value) ↔ EntryLine line key value :=
  ⟨entryLine_of_confEntry, confEntry_of_entryLine⟩

/-! ## The lines that `fgets` reads -/

/-- The lines of the file, in pieces where they do not fit the buffer. -/
def readLines (file : Bytes) : List Bytes := LinePieces.written 1023 (· == lf) file

/-- The entry of a line as a C string. -/
def lineEntry (line : Bytes) : Option (Bytes × Bytes) := confEntry (cstr line)

@[simp] theorem readLines_nil : readLines [] = [] := by
  simp [readLines, LinePieces.written_short]

theorem lineEntry_append_lf (line : Bytes) : lineEntry (line ++ [lf]) = lineEntry line := by
  unfold lineEntry
  by_cases hnul : nul ∈ line
  · rw [cstr_append_of_nul hnul]
  · have hlf : nul ∉ line ++ [lf] := by
      rw [List.mem_append, not_or]
      exact ⟨hnul, by decide⟩
    rw [cstr_eq_self hnul, cstr_eq_self hlf, confEntry_append_lf]

/-- What one `fgets` takes of a file: something, with the entry of one line at
most. -/
structure TookLine (file got rest : Bytes) : Prop where
  shorter : rest.length < file.length
  entries : (readLines file).filterMap lineEntry =
    (lineEntry got).toList ++ (readLines rest).filterMap lineEntry

theorem filterMap_lineEntry_cons (line : Bytes) (more : List Bytes) :
    (line :: more).filterMap lineEntry =
      (lineEntry line).toList ++ more.filterMap lineEntry := by
  rw [List.filterMap_cons]
  cases lineEntry line <;> rfl

section

variable {line : Bytes} (hline : ∀ b ∈ line, (b == lf) = false)
include hline

theorem TookLine.last (hne : line ≠ []) (hshort : line.length ≤ 1023) :
    TookLine line line [] where
  shorter := List.length_pos_of_ne_nil hne
  entries := by
    rw [readLines_nil, readLines, LinePieces.written_short hline hshort, if_neg hne]
    exact filterMap_lineEntry_cons line []

theorem readLines_line (hshort : line.length ≤ 1023) (more : Bytes) :
    readLines (line ++ lf :: more) = line :: readLines more :=
  LinePieces.written_end hline hshort rfl more

theorem TookLine.ended (hshort : line.length ≤ 1023) (more : Bytes) :
    TookLine (line ++ lf :: more) (line ++ [lf]) more where
  shorter := by
    simp only [List.length_append, List.length_cons]
    omega
  entries := by
    rw [readLines_line hline hshort, filterMap_lineEntry_cons, lineEntry_append_lf]

/-- A piece that fills the buffer leaves the rest of its line behind; where
only the line feed is left, it is read as an empty line. -/
theorem TookLine.full (hfull : line.length = 1023) {rest : Bytes} (hrest : rest ≠ []) :
    TookLine (line ++ rest) line rest where
  shorter := by
    rw [List.length_append]
    omega
  entries := by
    obtain ⟨a, more, rfl⟩ := List.exists_cons_of_ne_nil hrest
    cases ha : (a == lf) with
    | true =>
        obtain rfl := beq_iff_eq.mp ha
        have hempty : readLines (lf :: more) = [] :: readLines more :=
          readLines_line (by simp : ∀ b ∈ ([] : Bytes), (b == lf) = false) (by simp) more
        rw [readLines_line hline hfull.le, hempty, filterMap_lineEntry_cons]
        rfl
    | false =>
        rw [readLines, LinePieces.written_full (by omega) hline hfull ha]
        exact filterMap_lineEntry_cons line _

end

theorem fgets_took {file : Bytes} (hne : file ≠ []) :
    TookLine file (fgets 1024 file).1 (fgets 1024 file).2 := by
  obtain ⟨hlf, hcase⟩ := fileFirstLine file
  have hfile : file.takeWhile (· ≠ lf) ++ file.dropWhile (· ≠ lf) = file :=
    List.takeWhile_append_dropWhile
  unfold fgets
  simp only
  generalize file.takeWhile (· ≠ lf) = line at *
  generalize file.dropWhile (· ≠ lf) = rest at *
  subst hfile
  have hline : ∀ b ∈ line, (b == lf) = false := by
    intro b hb
    have hb' : b ≠ lf := fun h => hlf (h ▸ hb)
    simpa using hb'
  by_cases hfits : line.length + 1 ≤ 1024 - 1
  · rw [if_pos hfits]
    rcases hcase with rfl | ⟨more, rfl⟩
    · rw [List.append_nil] at hne ⊢
      rw [List.take_of_length_le (by omega), List.drop_of_length_le (by omega)]
      exact TookLine.last hline hne (by omega)
    · have htake : (line ++ lf :: more).take (line.length + 1) = line ++ [lf] := by
        rw [List.take_append]
        simp
      have hdrop : (line ++ lf :: more).drop (line.length + 1) = more := by
        rw [List.drop_append]
        simp
      rw [htake, hdrop]
      exact TookLine.ended hline (by omega) more
  · rw [if_neg hfits]
    have hlong : 1023 ≤ line.length := by omega
    have htake : (line ++ rest).take (1024 - 1) = line.take 1023 :=
      List.take_append_of_le_length hlong
    have hdrop : (line ++ rest).drop (1024 - 1) = line.drop 1023 ++ rest :=
      List.drop_append_of_le_length hlong
    have hsplit : line ++ rest = line.take 1023 ++ (line.drop 1023 ++ rest) := by
      rw [← List.append_assoc, List.take_append_drop]
    have hpiece : ∀ b ∈ line.take 1023, (b == lf) = false :=
      fun b hb => hline b (List.mem_of_mem_take hb)
    have hfull : (line.take 1023).length = 1023 := by
      rw [List.length_take]
      omega
    rw [htake, hdrop]
    by_cases hend : line.drop 1023 ++ rest = []
    · have hnone := hend
      rw [hend, List.append_nil] at hsplit
      rw [hend, hsplit]
      exact TookLine.last hpiece (List.length_pos_iff.mp (by omega)) hfull.le
    · rw [hsplit]
      exact TookLine.full hpiece hfull hend

theorem confLoop_readLines
    {fuel room : ℕ} {file : Bytes} (hfuel : file.length < fuel) :
    confLoop fuel room file =
      (((readLines file).filterMap lineEntry).take room).map storeKv := by
  induction fuel generalizing room file with
  | zero => omega
  | succ fuel ih =>
      unfold confLoop
      by_cases hroom : room = 0
      · simp [hroom]
      by_cases hne : file = []
      · subst hne
        simp [readLines, LinePieces.written_short]
      have htook := fgets_took hne
      have hshort := htook.shorter
      have hline : lineEntry (fgets 1024 file).1 = confEntry (cstr (fgets 1024 file).1) := rfl
      rw [if_neg (by tauto), htook.entries, hline]
      cases confEntry (cstr (fgets 1024 file).1) with
      | none => exact ih (by omega)
      | some e =>
          obtain ⟨left, rfl⟩ := Nat.exists_eq_succ_of_ne_zero hroom
          simp only [Option.toList_some, List.singleton_append, List.take_succ_cons,
            List.map_cons, Nat.succ_eq_add_one, Nat.add_sub_cancel]
          rw [ih (by omega)]

/-- The table holds the first entries of the lines. -/
theorem confLoad_eq (file : Bytes) (maxkv : ℕ) :
    confLoad file maxkv =
      (((readLines file).filterMap lineEntry).take maxkv).map storeKv :=
  confLoop_readLines (Nat.lt_succ_self _)

/-! ## Lookups -/

/-- The first hit among the first `n` entries, on the lines they come from. -/
theorem find?_take_filterMap
    {α β : Type*} {f : α → Option β} {p : β → Bool} {ls : List α} {n : ℕ} {e : β} :
    ((ls.filterMap f).take n).find? p = some e ↔
      ∃ before line after, ls = before ++ line :: after ∧ f line = some e ∧ p e = true ∧
        (before.filterMap f).length < n ∧ ∀ l ∈ before, ∀ e', f l = some e' → p e' = false := by
  induction ls generalizing n with
  | nil => simp
  | cons l ls ih =>
      constructor
      · intro hfind
        cases hl : f l with
        | none =>
            rw [List.filterMap_cons_none hl] at hfind
            obtain ⟨before, line, after, rfl, he, hp, hroom, hfirst⟩ := ih.mp hfind
            refine ⟨l :: before, line, after, rfl, he, hp, ?_, ?_⟩
            · rwa [List.filterMap_cons_none hl]
            · intro m hm e' he'
              rcases List.mem_cons.mp hm with rfl | hm
              · simp [hl] at he'
              · exact hfirst m hm e' he'
        | some e₀ =>
            rw [List.filterMap_cons_some hl] at hfind
            cases n with
            | zero => simp at hfind
            | succ n =>
                rw [List.take_succ_cons, List.find?_cons] at hfind
                cases hp₀ : p e₀ with
                | true =>
                    rw [hp₀] at hfind
                    obtain rfl := Option.some.inj hfind
                    exact ⟨[], l, ls, rfl, hl, hp₀, Nat.succ_pos n, by simp⟩
                | false =>
                    rw [hp₀] at hfind
                    obtain ⟨before, line, after, rfl, he, hp, hroom, hfirst⟩ := ih.mp hfind
                    refine ⟨l :: before, line, after, rfl, he, hp, ?_, ?_⟩
                    · rw [List.filterMap_cons_some hl, List.length_cons]
                      omega
                    · intro m hm e' he'
                      rcases List.mem_cons.mp hm with rfl | hm
                      · rw [hl] at he'
                        exact Option.some.inj he' ▸ hp₀
                      · exact hfirst m hm e' he'
      · rintro ⟨before, line, after, hls, he, hp, hroom, hfirst⟩
        cases before with
        | nil =>
            obtain ⟨rfl, rfl⟩ : l = line ∧ ls = after := by simpa using hls
            obtain ⟨room, rfl⟩ := Nat.exists_eq_succ_of_ne_zero (by simp at hroom; omega : n ≠ 0)
            rw [List.filterMap_cons_some he, Nat.succ_eq_add_one, List.take_succ_cons,
              List.find?_cons, hp]
        | cons m before =>
            obtain ⟨rfl, rfl⟩ : l = m ∧ ls = before ++ line :: after := by simpa using hls
            have hrest : ∀ m ∈ before, ∀ e', f m = some e' → p e' = false :=
              fun m hm => hfirst m (List.mem_cons_of_mem l hm)
            cases hl : f l with
            | none =>
                rw [List.filterMap_cons_none hl] at hroom ⊢
                exact ih.mpr ⟨before, line, after, rfl, he, hp, hroom, hrest⟩
            | some e₀ =>
                rw [List.filterMap_cons_some hl, List.length_cons] at hroom
                obtain ⟨room, rfl⟩ := Nat.exists_eq_succ_of_ne_zero (by omega : n ≠ 0)
                rw [List.filterMap_cons_some hl, Nat.succ_eq_add_one, List.take_succ_cons,
                  List.find?_cons, hfirst l List.mem_cons_self e₀ hl]
                exact ih.mpr ⟨before, line, after, rfl, he, hp, by omega, hrest⟩

/-- A lookup finds the value of the first line with the key, as long as the line
is in the table; keys and values are cut to the table's entries. -/
theorem conf_lookup_exact (file key v : Bytes) (maxkv : ℕ) :
    confGet (confLoad file maxkv) key = some v ↔
      ∃ before line after k value, readLines file = before ++ line :: after ∧
        EntryLine (cstr line) k value ∧ k.take 63 = key ∧ value.take 383 = v ∧
        (before.filterMap lineEntry).length < maxkv ∧
        ∀ l ∈ before, ∀ k' value', EntryLine (cstr l) k' value' → k'.take 63 ≠ key := by
  have hget : confGet (confLoad file maxkv) key =
      (((((readLines file).filterMap lineEntry).take maxkv).find?
        fun e => (storeKv e).key = key).map storeKv).map GcdsKv.val := by
    rw [confGet, confLoad_eq, List.find?_map]
    rfl
  rw [hget, Option.map_map, Option.map_eq_some_iff]
  constructor
  · rintro ⟨⟨k, value⟩, hfind, rfl⟩
    obtain ⟨before, line, after, hfile, hentry, hkey, hroom, hfirst⟩ :=
      find?_take_filterMap.mp hfind
    refine ⟨before, line, after, k, value, hfile, confEntry_eq_some_iff.mp hentry,
      of_decide_eq_true hkey, rfl, hroom, ?_⟩
    intro l hl k' value' hline
    exact of_decide_eq_false (hfirst l hl (k', value') (confEntry_eq_some_iff.mpr hline))
  · rintro ⟨before, line, after, k, value, hfile, hentry, hkey, hval, hroom, hfirst⟩
    refine ⟨(k, value), find?_take_filterMap.mpr ⟨before, line, after, hfile,
      confEntry_eq_some_iff.mpr hentry, decide_eq_true hkey, hroom, ?_⟩, hval⟩
    rintro l hl ⟨k', value'⟩ hline
    exact decide_eq_false (hfirst l hl k' value' (confEntry_eq_some_iff.mp hline))

/-! ## Writing a table out -/

def kvLine (kv : GcdsKv) : Bytes := kv.key ++ ascii " = " ++ kv.val

def renderConf (kvs : List GcdsKv) : Bytes := kvs.flatMap fun kv => kvLine kv ++ [lf]

/-- What holds of the entries of a table that was loaded: only their ends may be
blanks, where they were cut. -/
structure GcdsKv.Held (kv : GcdsKv) : Prop where
  key_ne : kv.key ≠ []
  noeq : equals ∉ kv.key
  nohash : kv.key.head? ≠ some hash
  key_front : ∀ b ∈ kv.key.head?, isBlank b = false
  val_front : ∀ b ∈ kv.val.head?, isBlank b = false
  text : ∀ b ∈ kv.key ++ kv.val, b ≠ lf ∧ b ≠ nul
  key_short : kv.key.length < confKeyMax
  val_short : kv.val.length < confValMax

theorem head_take {n : ℕ} {s : Bytes} {b : Byte} (h : b ∈ (s.take n).head?) :
    b ∈ s.head? := by
  cases n with
  | zero => simp at h
  | succ n =>
      cases s with
      | nil => simp at h
      | cons c s => exact h

theorem mem_entryLine
    {line key value : Bytes} (h : EntryLine line key value) {b : Byte}
    (hb : b ∈ key ++ value) : b ∈ line := by
  obtain ⟨-, -, w₁, w₂, w₃, w₄, rfl, -, -⟩ := h
  rcases List.mem_append.mp hb with hb | hb <;> simp [hb]

theorem mem_readLines {file line : Bytes} (hline : line ∈ readLines file) : lf ∉ line := by
  intro hlf
  have hflat : lf ∈ (readLines file).flatten := List.mem_flatten.mpr ⟨line, hline, hlf⟩
  rw [readLines, LinePieces.written_flatten (by omega)] at hflat
  simp at hflat

/-- The entries of a loaded table. -/
theorem confLoad_held {file : Bytes} {maxkv : ℕ} : ∀ kv ∈ confLoad file maxkv, kv.Held := by
  intro kv hkv
  rw [confLoad_eq] at hkv
  obtain ⟨⟨k, value⟩, he, rfl⟩ := List.mem_map.mp hkv
  obtain ⟨line, hline, hentry⟩ := List.mem_filterMap.mp (List.mem_of_mem_take he)
  have hwritten : EntryLine (cstr line) k value := confEntry_eq_some_iff.mp hentry
  have hkey := hwritten.1
  have hvalue := hwritten.2.1
  have hkfront := (trim_eq_self_iff.mp hkey.trimmed).1
  have hvfront := (trim_eq_self_iff.mp hvalue).1
  refine ⟨?_, ?_, ?_, ?_, ?_, ?_, ?_, ?_⟩
  · show k.take 63 ≠ []
    simp [hkey.ne]
  · exact fun hmem => hkey.noeq (List.mem_of_mem_take hmem)
  · exact fun hhash => hkey.nohash (head_take hhash)
  · exact fun b hb => hkfront b (head_take hb)
  · exact fun b hb => hvfront b (head_take hb)
  · intro b hb
    have hboth : b ∈ k ++ value := by
      rcases List.mem_append.mp hb with hb | hb
      · exact List.mem_append_left _ (List.mem_of_mem_take hb)
      · exact List.mem_append_right _ (List.mem_of_mem_take hb)
    have hmem := mem_entryLine hwritten hboth
    constructor
    · rintro rfl
      exact mem_readLines hline ((List.takeWhile_prefix _).mem hmem)
    · rintro rfl
      simpa using List.mem_takeWhile_imp hmem
  · show (k.take 63).length < 64
    rw [List.length_take]
    omega
  · show (value.take 383).length < 384
    rw [List.length_take]
    omega

theorem eq_trim_append {s : Bytes} (hfront : ∀ b ∈ s.head?, isBlank b = false) :
    ∃ back, s = trim s ++ back ∧ ∀ b ∈ back, isEndBlank b = true := by
  obtain ⟨front, back, hs, hblank, hback, -, -⟩ := (trim_eq_iff (s := s)).mp rfl
  cases front with
  | nil => exact ⟨back, hs, hback⟩
  | cons c front =>
      have hc := hfront c (by rw [hs]; rfl)
      rw [hblank c List.mem_cons_self] at hc
      exact absurd hc (by simp)

/-- The line of an entry is read back, trimmed. -/
theorem lineEntry_kvLine
    {kv : GcdsKv} (h : kv.Held) :
    lineEntry (kvLine kv) =
      if trim kv.key = [] then none else some (trim kv.key, trim kv.val) := by
  have hcstr : cstr (kvLine kv) = kvLine kv := by
    apply cstr_eq_self
    intro hnul
    simp only [kvLine, List.mem_append] at hnul
    rcases hnul with (hnul | hnul) | hnul
    · exact (h.text nul (List.mem_append_left _ hnul)).2 rfl
    · revert hnul
      decide
    · exact (h.text nul (List.mem_append_right _ hnul)).2 rfl
  have hline : kvLine kv = (kv.key ++ [sp]) ++ equals :: ([sp] ++ kv.val) := by
    have hmid : ascii " = " = [sp] ++ equals :: [sp] := rfl
    rw [kvLine, hmid]
    simp
  obtain ⟨back, hkey, hback⟩ := eq_trim_append h.key_front
  obtain ⟨vback, hval, hvback⟩ := eq_trim_append h.val_front
  unfold lineEntry
  rw [hcstr]
  split_ifs with hnil
  · -- All of the key is blank: an entry would need a key in front of the sign.
    cases hentry : confEntry (kvLine kv) with
    | none => rfl
    | some e =>
        exfalso
        obtain ⟨k, value⟩ := e
        obtain ⟨htext, -, w₁, w₂, w₃, w₄, hsplit, hw, hw'⟩ := confEntry_eq_some_iff.mp hentry
        have hall : ∀ b ∈ kv.key ++ [sp], isEndBlank b = true := by
          intro b hb
          rw [hkey, hnil, List.nil_append] at hb
          rcases List.mem_append.mp hb with hb | hb
          · exact hback b hb
          · rw [List.mem_singleton.mp hb]
            decide
        have hnoeq : equals ∉ kv.key ++ [sp] :=
          fun hmem => absurd (hall equals hmem) (by decide)
        have hnoeq' : equals ∉ w₁ ++ (k ++ w₂) := by
          intro hmem
          simp only [List.mem_append] at hmem
          rcases hmem with hmem | hmem | hmem
          · exact absurd (hw equals (by simp [hmem])) (by decide)
          · exact htext.noeq hmem
          · exact absurd (hw' equals (by simp [hmem])) (by decide)
        have hcut := cutAt_append_cons hnoeq ([sp] ++ kv.val)
        have hcut' := cutAt_append_cons hnoeq' (w₃ ++ (value ++ w₄))
        have hsame : w₁ ++ (k ++ w₂) = kv.key ++ [sp] := by
          rw [← hline, hsplit] at hcut
          simp only [List.append_assoc] at hcut'
          rw [hcut'] at hcut
          exact (Prod.mk.inj hcut).1
        have hlast := (trim_eq_self_iff.mp htext.trimmed).2
          (k.getLast htext.ne) (List.getLast?_eq_some_getLast htext.ne)
        rw [hall] at hlast
        · exact absurd hlast (by simp)
        · rw [← hsame]
          simp [List.getLast_mem htext.ne]
  · have hhead : (trim kv.key).head? = kv.key.head? := by
      obtain ⟨b, k, hk⟩ := List.exists_cons_of_ne_nil hnil
      conv_rhs => rw [hkey, hk]
      rw [hk]
      rfl
    rw [confEntry_eq_some_iff]
    refine ⟨⟨hnil, ?_, hhead ▸ h.nohash, trim_trim _⟩, trim_trim _,
      [], back ++ [sp], [sp], vback, ?_, ?_, ?_⟩
    · exact fun hmem => h.noeq (hkey ▸ List.mem_append_left _ hmem)
    · rw [hline]
      conv_lhs => rw [hkey, hval]
      simp only [List.nil_append, List.append_assoc]
    · simp [isBlank]
    · intro b hb
      simp only [List.mem_append, List.mem_singleton] at hb
      rcases hb with (hb | rfl) | hb
      · exact hback b hb
      · decide
      · exact hvback b hb

theorem readLines_renderConf
    {kvs : List GcdsKv} (h : ∀ kv ∈ kvs, kv.Held) :
    readLines (renderConf kvs) = kvs.map kvLine := by
  induction kvs with
  | nil => exact readLines_nil
  | cons kv kvs ih =>
      obtain ⟨hkv, hkvs⟩ := List.forall_mem_cons.mp h
      have htext : ∀ b ∈ kvLine kv, (b == lf) = false := by
        intro b hb
        simp only [kvLine, List.mem_append] at hb
        rcases hb with (hb | hb) | hb
        · simpa using (hkv.text b (List.mem_append_left _ hb)).1
        · revert b
          decide +kernel
        · simpa using (hkv.text b (List.mem_append_right _ hb)).1
      have hlen : (kvLine kv).length ≤ 1023 := by
        have hthree : (ascii " = ").length = 3 := rfl
        have hk : kv.key.length < 64 := hkv.key_short
        have hv : kv.val.length < 384 := hkv.val_short
        simp only [kvLine, List.length_append]
        omega
      have hrest := ih hkvs
      unfold renderConf at hrest ⊢
      rw [List.flatMap_cons, List.append_assoc, List.singleton_append,
        readLines_line htext hlen, hrest, List.map_cons]

theorem filterMap_eq_self_iff {α : Type*} {f : α → Option α} {l : List α} :
    l.filterMap f = l ↔ ∀ a ∈ l, f a = some a := by
  induction l with
  | nil => simp
  | cons a l ih =>
      rw [List.forall_mem_cons, ← ih]
      cases ha : f a with
      | none =>
          rw [List.filterMap_cons_none ha]
          refine ⟨fun hsame => ?_, fun h => absurd h.1 (by simp)⟩
          have hlen := List.length_filterMap_le f l
          rw [hsame, List.length_cons] at hlen
          omega
      | some b =>
          rw [List.filterMap_cons_some ha, List.cons.injEq, Option.some.injEq]

/-- What a table loads as when it is written out. -/
def reloadKv (kv : GcdsKv) : Option GcdsKv :=
  if trim kv.key = [] then none else some ⟨trim kv.key, trim kv.val⟩

theorem reloadKv_eq_self_iff {kv : GcdsKv} (h : kv.Held) :
    reloadKv kv = some kv ↔ trim kv.key = kv.key ∧ trim kv.val = kv.val := by
  unfold reloadKv
  constructor
  · intro hsome
    split_ifs at hsome
    have hkv := Option.some.inj hsome
    exact ⟨congrArg GcdsKv.key hkv, congrArg GcdsKv.val hkv⟩
  · rintro ⟨hkey, hval⟩
    rw [hkey, hval, if_neg h.key_ne]

theorem length_trim_le (s : Bytes) : (trim s).length ≤ s.length := by
  obtain ⟨front, back, hs, -⟩ := (trim_eq_iff (s := s)).mp rfl
  have hlen := congrArg List.length hs
  simp only [List.length_append] at hlen
  omega

/-- A table written out and loaded again: its entries are trimmed. -/
theorem confLoad_renderConf
    {kvs : List GcdsKv} (h : ∀ kv ∈ kvs, kv.Held) (maxkv : ℕ) :
    confLoad (renderConf kvs) maxkv = (kvs.filterMap reloadKv).take maxkv := by
  rw [confLoad_eq, readLines_renderConf h, List.filterMap_map, List.map_take,
    List.map_filterMap]
  congr 1
  apply List.filterMap_congr
  intro kv hkv
  have hkv := h kv hkv
  have hk : kv.key.length < 64 := hkv.key_short
  have hv : kv.val.length < 384 := hkv.val_short
  have htk := length_trim_le kv.key
  have htv := length_trim_le kv.val
  have hkey : (trim kv.key).take 63 = trim kv.key := List.take_of_length_le (by omega)
  have hval : (trim kv.val).take 383 = trim kv.val := List.take_of_length_le (by omega)
  rw [Function.comp_apply, lineEntry_kvLine hkv, reloadKv]
  split_ifs
  · rfl
  · show some (⟨(trim kv.key).take 63, (trim kv.val).take 383⟩ : GcdsKv) = _
    rw [hkey, hval]

/-- A loaded table that is written out loads as itself exactly when no cut left
a blank at the end of an entry, so whenever no entry is cut. -/
theorem conf_reload_exact (file : Bytes) (maxkv : ℕ) :
    (confLoad (renderConf (confLoad file maxkv)) maxkv = confLoad file maxkv ↔
      ∀ kv ∈ confLoad file maxkv, trim kv.key = kv.key ∧ trim kv.val = kv.val) ∧
    ((∀ line ∈ readLines file, ∀ k value, EntryLine (cstr line) k value →
        k.length < confKeyMax ∧ value.length < confValMax) →
      confLoad (renderConf (confLoad file maxkv)) maxkv = confLoad file maxkv) := by
  have hlen : (confLoad file maxkv).length ≤ maxkv := by
    rw [confLoad_eq, List.length_map, List.length_take]
    omega
  have hiff : confLoad (renderConf (confLoad file maxkv)) maxkv = confLoad file maxkv ↔
      ∀ kv ∈ confLoad file maxkv, trim kv.key = kv.key ∧ trim kv.val = kv.val := by
    have hshort := (List.length_filterMap_le reloadKv (confLoad file maxkv)).trans hlen
    rw [confLoad_renderConf confLoad_held, List.take_of_length_le hshort,
      filterMap_eq_self_iff]
    exact forall₂_congr fun kv hkv => reloadKv_eq_self_iff (confLoad_held kv hkv)
  refine ⟨hiff, fun hfits => hiff.mpr ?_⟩
  intro kv hkv
  rw [confLoad_eq] at hkv
  obtain ⟨⟨k, value⟩, he, rfl⟩ := List.mem_map.mp hkv
  obtain ⟨line, hline, hentry⟩ := List.mem_filterMap.mp (List.mem_of_mem_take he)
  have hwritten : EntryLine (cstr line) k value := confEntry_eq_some_iff.mp hentry
  obtain ⟨hk, hv⟩ := hfits line hline k value hwritten
  have hkey : k.take 63 = k := List.take_of_length_le (Nat.le_of_lt_succ hk)
  have hval : value.take 383 = value := List.take_of_length_le (Nat.le_of_lt_succ hv)
  show trim (k.take 63) = k.take 63 ∧ trim (value.take 383) = value.take 383
  rw [hkey, hval]
  exact ⟨hwritten.1.trimmed, hwritten.2.1⟩

end GrandCross
