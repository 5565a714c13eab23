import Specializer.Proofs.Toml.Reading

/-!
# Plain documents are read back

The lines of a plain document are read one after another: each entry goes to the end of the table
under the last header, and each header opens a table behind those that are there. What is read in
the end are the entries of the document. Whatever a format does, the laws stated here are all that
is asked of it: it writes plain documents whose integers have 64 bits and no others, and it reads
what it writes for what it stands for.
-/

set_option autoImplicit false

namespace Specializer

namespace Toml

/-! ### Keys -/

theorem ne_of_isBareChar {c d : Char} (hc : isBareChar c) (hd : isBareChar d = false) : c ≠ d := by
  rintro rfl
  rw [hd] at hc
  cases hc

def Bare (word : List Char) : Prop := word ≠ [] ∧ ∀ c ∈ word, isBareChar c

theorem bare_of_isBareWord {word : String} (h : isBareWord word) : Bare word.toList := by
  simpa [isBareWord, Bare] using h

namespace Bare

variable {word : List Char} (h : Bare word)

include h

theorem append_ne_cons {d : Char} (hd : isBareChar d = false) (rest tail : List Char) :
    word ++ rest ≠ d :: tail := by
  obtain ⟨c, word, rfl⟩ := List.exists_cons_of_ne_nil h.1
  intro heq
  exact ne_of_isBareChar (h.2 c List.mem_cons_self) hd (List.cons.inj heq).1

theorem solid : Solid word := by
  obtain ⟨c, word, rfl⟩ := List.exists_cons_of_ne_nil h.1
  have hNe {d : Char} (hd : isBareChar d = false) : c ≠ d :=
    ne_of_isBareChar (h.2 c List.mem_cons_self) hd
  refine solid_cons ?_ word
  simp [isSolid, isBlank, hNe (d := ' ') (by decide), hNe (d := '\t') (by decide),
    hNe (d := '\n') (by decide), hNe (d := '\r') (by decide), hNe (d := '#') (by decide),
    hNe (d := ']') (by decide)]

end Bare

theorem keyPart_bare {word : String} (h : Bare word.toList) {d : Char} (hd : isBareChar d = false)
    (rest : List Char) : keyPart (word.toList ++ d :: rest) = some (word, d :: rest) := by
  rw [keyPart]
  · simp [List.takeWhile_append_of_pos h.2, List.dropWhile_append_of_pos h.2, hd, h.1]
  · exact fun _ => h.append_ne_cons (by decide) _ _
  · exact fun _ => h.append_ne_cons (by decide) _ _

theorem key_bare {word : String} (h : Bare word.toList) {d : Char} (hd : isBareChar d = false)
    {rest after : List Char} (hRest : skipBlanks (d :: rest) = after)
    (hDot : after.head? ≠ some '.') :
    key (word.toList ++ d :: rest) = some ([word], after) := by
  rw [key, maxNesting, keyWithin, h.solid.skipBlanks_append, keyPart_bare h hd]
  subst hRest
  simp only [Option.bind_eq_bind, Option.bind_some]
  split
  · next heq => simp [heq] at hDot
  · rfl

/-! ### Lines -/

/-- What the writer asks of an entry. -/
structure Writable (e : String × Toml) : Prop where
  bare : isBareWord e.1
  plain : e.2.isPlain
  inRange : e.2.isInRange

theorem toList_entryText_append (e : String × Toml) (rest : List Char) :
    (entryText e).toList ++ rest =
      e.1.toList ++ ' ' :: '=' :: ' ' :: (e.2.text.toList ++ '\n' :: rest) := by
  simp [entryText]

theorem lineEnd_newline (rest : List Char) : lineEnd ('\n' :: rest) = some rest := rfl

theorem entry_entryText {bound : Nat} {e : String × Toml} (h : Writable e)
    (hBound : (entryText e).toList.length ≤ bound) (rest : List Char) :
    entry (value bound (maxNesting - 1)) ((entryText e).toList ++ rest) =
      some (([e.1], e.2), '\n' :: rest) := by
  have hKey : key ((entryText e).toList ++ rest) =
      some ([e.1], '=' :: ' ' :: (e.2.text.toList ++ '\n' :: rest)) := by
    rw [toList_entryText_append]
    exact key_bare (bare_of_isBareWord h.bare) (by decide) (by simp [skipBlanks, isBlank])
      (by simp)
  have hRead : Reads (value bound (maxNesting - 1)) e.2.text.toList e.2 := by
    refine reads_plain h.plain h.inRange (Nat.le_trans ?_ hBound)
    simp only [entryText, String.toList_append, List.length_append]
    omega
  have hBlank (cs : List Char) : skipBlanks (' ' :: cs) = skipBlanks cs := rfl
  simp [entry, hKey, expect, hBlank, hRead.solid.skipBlanks_append,
    hRead.item_append (c := '\n') (by decide)]

theorem linesWithin_entry {bound fuel : Nat} {r : Reading} {e : String × Toml} {root : Entries}
    (h : Writable e) (hBound : (entryText e).toList.length ≤ bound)
    (hRoot : changeAt r.root (fun entries => insertDotted e.2 entries [e.1]) r.path = some root)
    (rest : List Char) :
    linesWithin bound (fuel + 1) r ((entryText e).toList ++ rest) =
      linesWithin bound fuel ⟨root, r.path⟩ rest := by
  have hBare := bare_of_isBareWord h.bare
  have hEntry := entry_entryText h hBound rest
  rw [toList_entryText_append] at hEntry ⊢
  have hLine : line bound r (e.1.toList ++ ' ' :: '=' :: ' ' :: (e.2.text.toList ++ '\n' :: rest)) =
      some (⟨root, r.path⟩, rest) := by
    rw [line]
    · simp [hEntry, hRoot, lineEnd_newline]
    · exact fun _ => hBare.append_ne_cons (by decide) _ _
    · exact fun _ => hBare.append_ne_cons (by decide) _ _
  rw [linesWithin, hBare.solid.skipTrivia_append]
  split
  · next heq => simp at heq
  · next heq => exact absurd heq (hBare.append_ne_cons (by decide) _ _)
  · rw [hLine]
    rfl

theorem linesWithin_header {bound fuel : Nat} {r : Reading} {name : String} {root : Entries}
    (hName : isBareWord name) (hRoot : openTable r.root name = some root) (rest : List Char) :
    linesWithin bound (fuel + 1) r ('[' :: (name.toList ++ ']' :: '\n' :: rest)) =
      linesWithin bound fuel ⟨root, [name]⟩ rest := by
  have hBare := bare_of_isBareWord hName
  have hKey : key (name.toList ++ ']' :: '\n' :: rest) = some ([name], ']' :: '\n' :: rest) :=
    key_bare hBare (by decide) rfl (by simp)
  have hLine : line bound r ('[' :: (name.toList ++ ']' :: '\n' :: rest)) =
      some (⟨root, [name]⟩, rest) := by
    rw [line]
    · simp [header, hKey, changeAt, hRoot, lineEnd_newline]
    · exact fun _ => hBare.append_ne_cons (by decide) _ _
  have hSkip (cs : List Char) : skipTrivia ('[' :: cs) = '[' :: cs := rfl
  simp [linesWithin, hSkip, hLine]

theorem linesWithin_newline (bound fuel : Nat) (r : Reading) (rest : List Char) :
    linesWithin bound fuel r ('\n' :: rest) = linesWithin bound fuel r rest := by
  have hSkip : skipTrivia ('\n' :: rest) = skipTrivia rest := rfl
  cases fuel with
  | zero => rfl
  | succ fuel => rw [linesWithin, linesWithin, hSkip]

/-! ### Tables -/

theorem lookup_eq_none {entries : Entries} {key : String} (h : key ∉ entries.map Prod.fst) :
    lookup entries key = none := by
  rw [lookup, Option.map_eq_none_iff, List.find?_eq_none]
  intro entry hEntry
  simp only [decide_eq_true_eq]
  rintro rfl
  exact h (List.mem_map_of_mem hEntry)

theorem lookup_append_singleton {entries : Entries} {key : String}
    (h : key ∉ entries.map Prod.fst) (v : Toml) :
    lookup (entries ++ [(key, v)]) key = some v := by
  have hNone := lookup_eq_none h
  rw [lookup, Option.map_eq_none_iff] at hNone
  simp [lookup, List.find?_append, hNone]

theorem put_append_singleton {entries : Entries} {key : String}
    (h : key ∉ entries.map Prod.fst) (v w : Toml) :
    put (entries ++ [(key, v)]) key w = entries ++ [(key, w)] := by
  induction entries with
  | nil => simp [put]
  | cons entry entries ih =>
    rw [List.map_cons, List.mem_cons, not_or] at h
    simp [put, Ne.symm h.1, ih h.2]

/-- Entries lie under a path in the document that is made of them. -/
def Focus (rebuild : Entries → Entries) (path : List String) : Prop :=
  ∀ entries change, changeAt (rebuild entries) change path = (change entries).map rebuild

theorem focus_root : Focus id [] := by
  intro entries change
  simp [changeAt]

theorem focus_last {done : Entries} {name : String} (h : name ∉ done.map Prod.fst) :
    Focus (fun entries => done ++ [(name, .table .header entries)]) [name] := by
  intro entries change
  rw [changeAt, lookup_append_singleton h]
  simp only [changeAt, put_append_singleton h]
  cases change entries <;> rfl

theorem linesWithin_block (bound fuel : Nat) {rebuild : Entries → Entries} {path : List String}
    (hFocus : Focus rebuild path) (inner : Entries) {block : Entries}
    (hBlock : ∀ e ∈ block, Writable e) (hKeys : ((inner ++ block).map Prod.fst).Nodup)
    (rest : List Char) (hFuel : ((blockText block).toList ++ rest).length < fuel)
    (hBound : (blockText block).toList.length ≤ bound) :
    ∃ fuel', rest.length < fuel' ∧
      linesWithin bound fuel ⟨rebuild inner, path⟩ ((blockText block).toList ++ rest) =
        linesWithin bound fuel' ⟨rebuild (inner ++ block), path⟩ rest := by
  induction block generalizing inner fuel with
  | nil => exact ⟨fuel, by simpa [blockText] using hFuel, by simp [blockText]⟩
  | cons e block ih =>
    rw [List.forall_mem_cons] at hBlock
    have hText : (blockText (e :: block)).toList =
        (entryText e).toList ++ (blockText block).toList := by
      simp [blockText]
    rw [hText] at hFuel hBound ⊢
    rw [List.append_assoc] at hFuel ⊢
    rw [List.length_append] at hFuel hBound
    have hPos : 0 < (entryText e).toList.length := by
      simp only [entryText, String.toList_append, List.length_append]
      exact Nat.lt_add_left _ (by decide)
    obtain ⟨fuel, rfl⟩ := Nat.exists_eq_add_one_of_ne_zero (Nat.ne_zero_of_lt hFuel)
    have hSplit : inner ++ e :: block = inner ++ [e] ++ block := by simp
    rw [hSplit] at hKeys ⊢
    have hNew : e.1 ∉ inner.map Prod.fst := by
      rw [List.map_append, List.map_append, List.nodup_append, List.nodup_append] at hKeys
      intro hMem
      exact hKeys.1.2.2 e.1 hMem e.1 (by simp) rfl
    have hRoot : changeAt (rebuild inner) (fun entries => insertDotted e.2 entries [e.1]) path =
        some (rebuild (inner ++ [e])) := by
      rw [hFocus]
      simp [insertDotted, insertNew, lookup_eq_none hNew]
    rw [linesWithin_entry (r := ⟨rebuild inner, path⟩) hBlock.1 (by omega) hRoot]
    exact ih _ (inner ++ [e]) hBlock.2 hKeys (by omega) (by omega)

theorem linesWithin_tables {bound : Nat} {tables : List (String × Entries)}
    (hNames : ∀ table ∈ tables, isBareWord table.1)
    (hTables : ∀ table ∈ tables, (∀ e ∈ table.2, Writable e) ∧ (table.2.map Prod.fst).Nodup)
    {done : Entries} (hKeys : (done.map Prod.fst ++ tables.map Prod.fst).Nodup)
    {path : List String} {fuel : Nat}
    (hFuel : (String.join (tables.map tableText)).toList.length < fuel)
    (hBound : (String.join (tables.map tableText)).toList.length ≤ bound) :
    linesWithin bound fuel ⟨done, path⟩ (String.join (tables.map tableText)).toList =
      some (done ++ tables.map fun table => (table.1, .table .header table.2)) := by
  induction tables generalizing done path fuel with
  | nil =>
    obtain ⟨fuel, rfl⟩ := Nat.exists_eq_add_one_of_ne_zero (Nat.ne_zero_of_lt hFuel)
    simp [linesWithin, skipTrivia, skipTriviaFrom]
  | cons table tables ih =>
    rw [List.forall_mem_cons] at hNames hTables
    have hText : (String.join ((table :: tables).map tableText)).toList =
        '\n' :: '[' :: (table.1.toList ++ ']' :: '\n' ::
          ((blockText table.2).toList ++ (String.join (tables.map tableText)).toList)) := by
      simp [tableText]
    have hLength : (String.join ((table :: tables).map tableText)).toList.length =
        4 + table.1.toList.length +
          ((blockText table.2).toList ++ (String.join (tables.map tableText)).toList).length := by
      rw [hText]
      simp only [List.length_cons, List.length_append]
      omega
    rw [hLength] at hFuel hBound
    rw [List.length_append] at hBound
    obtain ⟨fuel, rfl⟩ := Nat.exists_eq_add_one_of_ne_zero (Nat.ne_zero_of_lt hFuel)
    have hNew : table.1 ∉ done.map Prod.fst := by
      rw [List.map_cons, List.nodup_append] at hKeys
      intro hMem
      exact hKeys.2.2 table.1 hMem table.1 List.mem_cons_self rfl
    have hOpen : openTable done table.1 = some (done ++ [(table.1, .table .header [])]) := by
      simp [openTable, lookup_eq_none hNew]
    have hBlock := linesWithin_block bound fuel (focus_last hNew) [] hTables.1.1
      hTables.1.2 (String.join (tables.map tableText)).toList (by omega) (by omega)
    obtain ⟨fuel', hFuel', hRead⟩ := hBlock
    rw [hText, linesWithin_newline, linesWithin_header hNames.1 hOpen, hRead,
      ih hNames.2 hTables.2 (by simpa using hKeys) hFuel' (by omega)]
    simp

/-! ### Documents -/

theorem parse_eq {text : String} (h : text.toList.head? ≠ some '\ufeff') :
    parse text =
      linesWithin (text.toList.length + 1) (text.toList.length + 1) ⟨[], []⟩ text.toList := by
  unfold parse
  split
  · next heq => simp [heq] at h
  · rfl

namespace Document

variable {d : Document}

/-- What the writer asks of a document. -/
structure Ready (d : Document) : Prop where
  distinct : ∀ block ∈ d.entries :: d.blocks, (block.map Prod.fst).Nodup
  names : ∀ table ∈ d.tables, isBareWord table.1
  writable : ∀ block ∈ d.blocks, ∀ e ∈ block, Writable e

theorem ready_of_isPlain (hPlain : d.isPlain) (hRange : d.isInRange) : d.Ready := by
  simp only [isPlain, Bool.and_eq_true, List.all_eq_true, decide_eq_true_eq] at hPlain
  simp only [isInRange, List.all_eq_true] at hRange
  obtain ⟨⟨hDistinct, hBare⟩, hValues⟩ := hPlain
  refine ⟨hDistinct, ?_, ?_⟩
  · intro table hTable
    exact hBare d.entries List.mem_cons_self (table.1, .table .header table.2)
      (List.mem_append_right _ (List.mem_map_of_mem hTable))
  · intro block hBlock e he
    exact ⟨hBare block (List.mem_cons_of_mem _ hBlock) e he, hValues block hBlock e he,
      hRange block hBlock e he⟩

theorem head?_text (h : d.Ready) : d.text.toList.head? ≠ some '\ufeff' := by
  obtain ⟨fields, tables⟩ := d
  cases fields with
  | nil => cases tables <;> simp [text, blockText, tableText]
  | cons e fields =>
    have hBare := bare_of_isBareWord (h.writable (e :: fields) List.mem_cons_self e
      List.mem_cons_self).bare
    obtain ⟨c, name, hName⟩ := List.exists_cons_of_ne_nil hBare.1
    have hFirst : isBareChar c := hBare.2 c (hName ▸ List.mem_cons_self)
    simp [text, blockText, entryText, hName, ne_of_isBareChar hFirst (d := '\ufeff') (by decide)]

theorem parse_text (h : d.Ready) : parse d.text = some d.entries := by
  have hText : d.text.toList =
      (blockText d.fields).toList ++ (String.join (d.tables.map tableText)).toList := by
    simp [text]
  have hKeys : (d.fields.map Prod.fst ++ d.tables.map Prod.fst).Nodup := by
    simpa [entries, Function.comp_def] using h.distinct d.entries List.mem_cons_self
  have hLength : d.text.toList.length = (blockText d.fields).toList.length +
      (String.join (d.tables.map tableText)).toList.length := by
    rw [hText, List.length_append]
  -- first the entries in front of all headers, then table by table
  have hFields := linesWithin_block (d.text.toList.length + 1)
    (d.text.toList.length + 1) focus_root [] (h.writable d.fields List.mem_cons_self)
    (h.distinct d.fields (List.mem_cons_of_mem _ List.mem_cons_self))
    (String.join (d.tables.map tableText)).toList (by rw [← hText]; omega) (by omega)
  rw [← hText] at hFields
  obtain ⟨fuel, hFuel, hFields⟩ := hFields
  rw [parse_eq (head?_text h)]
  refine hFields.trans (linesWithin_tables h.names ?_ hKeys hFuel (by omega))
  intro table hTable
  have hMem : table.2 ∈ d.blocks := List.mem_cons_of_mem _ (List.mem_map_of_mem hTable)
  exact ⟨h.writable _ hMem, h.distinct _ (List.mem_cons_of_mem _ hMem)⟩

end Document

end Toml

/-! ### Laws of a format -/

/-- A format keeps to what texts stand for. It writes plain documents, unless an integer does not
have 64 bits, and reads every text for the entries that it stands for. -/
structure Format.Conforms (format : Format) (Denotes : String → Toml.Entries → Prop) : Prop where
  writes : ∀ d : Toml.Document, d.isPlain → d.isInRange →
    ∃ text, format.write d = some text ∧ Denotes text d.entries
  refuses : ∀ d : Toml.Document, d.isPlain → d.isInRange = false → format.write d = none
  reads : ∀ text entries, Denotes text entries → format.read text = some entries

theorem Format.toml_conforms :
    Format.toml.Conforms fun text entries => Toml.parse text = some entries where
  writes d hPlain hRange :=
    ⟨d.text, by simp [toml, Toml.Document.write, hPlain, hRange],
      Toml.Document.parse_text (Toml.Document.ready_of_isPlain hPlain hRange)⟩
  refuses d _ hRange := by simp [toml, Toml.Document.write, hRange]
  reads _ _ h := h

end Specializer
