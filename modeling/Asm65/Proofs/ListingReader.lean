-- SUMMARY: Reading a printed listing back: the lines, their numbers, their sources and all their bytes.
import Asm65.Assembly
import Asm65.Literal
import Asm65.Proofs.NumberLiterals
import Asm65.Proofs.Respelling
import Asm65.Proofs.Run

/-!
# Reading listings

A listing can be read back, whatever the sources in it look like. The first row of a line has the
columns for bytes and for the number, and so it is longer than any row of bytes only; bytes stand in
the first nine columns and nowhere else. The rows are read from the last one up, so that the bytes
of further rows are at hand when the first row of their line comes.
-/
namespace Asm65

namespace Listing

/-! ## The reader -/

/-- The bytes that pairs of digits spell; blanks do not matter. -/
def readBytes (t : Text) : List UInt8 :=
  (Literal.pairs? (t.filterMap Numeral.hexDigit?)).getD []

/-- A first row: bytes in nine columns, the number behind blanks, two blanks, the source. -/
def readFirst (row : Text) : ListingEntry :=
  let field := (row.drop 9).dropWhile (· == ' ')
  { number := Nat.ofDigitChars 10 (field.takeWhile (· != ' ')) 0
    source := (field.dropWhile (· != ' ')).drop 2
    bytes := readBytes (row.take 9) }

/-- Read a row, given the bytes and the lines that were read from the rows below it. The bytes are
those of a line whose first row is still to come. -/
def readRow (row : Text) (below : List UInt8 × List ListingEntry) :
    List UInt8 × List ListingEntry :=
  if row.length < 9 then (readBytes row ++ below.1, below.2)
  else
    let line := readFirst row
    ([], { line with bytes := line.bytes ++ below.1 } :: below.2)

/-- The lines of a listing. -/
def read (t : Text) : List ListingEntry := ((t.splitOn '\n').foldr readRow ([], [])).2

end Listing

/-! ## Rows of bytes -/

namespace Numeral

/-- The two digits of a byte. -/
theorem digits_hexByte (b : UInt8) :
    (hexByte b).filterMap hexDigit? = [b.toNat / 16, b.toNat % 16] := by
  have hbyte := b.toNat_lt
  have hhigh : b.toNat / 16 % 16 = b.toNat / 16 := Nat.mod_eq_of_lt (by omega)
  have hhighDigit := hexDigit?_digitChar (n := b.toNat / 16) (by omega)
  have hlowDigit := hexDigit?_digitChar (n := b.toNat % 16) (by omega)
  simp [hexByte, fixed, hhigh, hhighDigit, hlowDigit]

theorem not_mem_hexByte (b : UInt8) : '\n' ∉ hexByte b := by
  have hdigit {n : Nat} (h : n < 16) : '\n' ≠ digitChar n := by
    intro heq
    have hvalue := hexDigit?_digitChar h
    rw [← heq] at hvalue
    cases hvalue
  have hhigh := hdigit (Nat.mod_lt (b.toNat / 16) (by decide))
  have hlow := hdigit (Nat.mod_lt b.toNat (by decide))
  simp [hexByte, fixed, hhigh, hlow]

end Numeral

namespace ListingEntry

theorem hexRow_cons_cons (a b : UInt8) (rest : List UInt8) :
    hexRow (a :: b :: rest) = Numeral.hexByte a ++ ' ' :: hexRow (b :: rest) := by
  simp [hexRow]

theorem length_hexRow (bytes : List UInt8) : (hexRow bytes).length = 3 * bytes.length - 1 := by
  induction bytes with
  | nil => rfl
  | cons a rest ih =>
    cases rest with
    | nil => simp [hexRow, Numeral.hexByte]
    | cons b rest =>
      rw [hexRow_cons_cons, List.length_append, List.length_cons, ih]
      simp only [Numeral.hexByte, Numeral.length_fixed, List.length_cons]
      omega

/-- The digits of a row are those of its bytes. -/
theorem digits_hexRow (bytes : List UInt8) :
    (hexRow bytes).filterMap Numeral.hexDigit? =
      bytes.flatMap fun b => [b.toNat / 16, b.toNat % 16] := by
  induction bytes with
  | nil => rfl
  | cons a rest ih =>
    cases rest with
    | nil => simp [hexRow, Numeral.digits_hexByte]
    | cons b rest =>
      have hblank : Numeral.hexDigit? ' ' = none := rfl
      rw [hexRow_cons_cons, List.filterMap_append, List.filterMap_cons_none hblank, ih,
        Numeral.digits_hexByte]
      rfl

theorem length_of_mem_chunks {bytes chunk : List UInt8} (h : chunk ∈ chunks bytes) :
    chunk.length ≤ 3 := by
  fun_induction chunks bytes with
  | case1 => cases h
  | case2 => simp_all
  | case3 => simp_all
  | case4 a b c rest ih =>
    rcases List.mem_cons.mp h with rfl | h
    · exact Nat.le_refl 3
    · exact ih h

end ListingEntry

namespace Listing

theorem pairs?_digits (bytes : List UInt8) :
    Literal.pairs? (bytes.flatMap fun b => [b.toNat / 16, b.toNat % 16]) = some bytes := by
  induction bytes with
  | nil => rfl
  | cons b rest ih =>
    have hbyte : b.toNat / 16 * 16 + b.toNat % 16 = b.toNat := Nat.div_add_mod' b.toNat 16
    simp [Literal.pairs?, ih, hbyte]

/-- A row gives its bytes back, with blanks behind it or none. -/
theorem readBytes_padRight (width : Nat) (bytes : List UInt8) :
    readBytes ((ListingEntry.hexRow bytes).padRight width) = bytes := by
  have hblank : Numeral.hexDigit? ' ' = none := rfl
  rw [readBytes, Text.padRight, List.filterMap_append, List.filterMap_replicate, hblank,
    List.append_nil, ListingEntry.digits_hexRow, pairs?_digits, Option.getD_some]

theorem readBytes_hexRow (bytes : List UInt8) :
    readBytes (ListingEntry.hexRow bytes) = bytes := by
  have h := readBytes_padRight 0 bytes
  rwa [Text.padRight, Nat.zero_sub, List.replicate_zero, List.append_nil] at h

/-! ## First rows -/

variable {line : ListingEntry} {bytes : List UInt8}

/-- Bytes that fit into the columns for them fill these exactly. -/
theorem length_columns (h : bytes.length ≤ 3) :
    ((ListingEntry.hexRow bytes).padRight 9).length = 9 := by
  rw [Text.padRight, List.length_append, List.length_replicate, ListingEntry.length_hexRow]
  omega

theorem columns_firstRow (h : bytes.length ≤ 3) :
    (line.firstRow bytes).take 9 = (ListingEntry.hexRow bytes).padRight 9 := by
  rw [ListingEntry.firstRow, List.append_assoc, List.take_left' (length_columns h)]

theorem ne_blank_of_mem_decimal {n : Nat} {c : Char} (h : c ∈ Numeral.decimal n) :
    (c != ' ') = true := by
  have hdigit : c.isDigit := Nat.isDigit_of_mem_toDigits (by decide) (by decide) h
  rw [bne_iff_ne]
  rintro rfl
  cases hdigit

/-- Behind the columns for bytes and the blanks comes the number, however many digits it has. -/
theorem field_firstRow (h : bytes.length ≤ 3) :
    ((line.firstRow bytes).drop 9).dropWhile (· == ' ') =
      Numeral.decimal line.number ++ ' ' :: ' ' :: line.source := by
  have hblanks : ∀ c ∈ ' ' :: List.replicate (4 - (Numeral.decimal line.number).length) ' ',
      (c == ' ') = true := by
    simp [List.mem_replicate]
  have hdigit : (Numeral.decimal line.number ++ ' ' :: ' ' :: line.source).head?.map (· == ' ') ≠
      some true := by
    have hdigits (c : Char) := ne_blank_of_mem_decimal (n := line.number) (c := c)
    have hne : Numeral.decimal line.number ≠ [] := Nat.toDigits_ne_nil
    obtain ⟨c, rest, hcons⟩ := List.exists_cons_of_ne_nil hne
    rw [hcons] at hdigits ⊢
    refine Text.head?_cons_ne ?_ _
    simpa using hdigits c (List.mem_cons_self ..)
  have hrest := Text.dropWhile_append hblanks hdigit
  rw [ListingEntry.firstRow, List.append_assoc, List.drop_left' (length_columns h), ← hrest,
    Text.padLeft]
  simp

/-- A first row gives its line back, with the bytes that are in it. -/
theorem readFirst_firstRow (h : bytes.length ≤ 3) :
    readFirst (line.firstRow bytes) = { line with bytes } := by
  have hdigits (c : Char) := ne_blank_of_mem_decimal (n := line.number) (c := c)
  have hend : (' ' :: ' ' :: line.source).head?.map (· != ' ') ≠ some true := nofun
  have hnumber : Nat.ofDigitChars 10 (Numeral.decimal line.number) 0 = line.number :=
    Nat.ofDigitChars_ten_toDigits
  rw [readFirst, field_firstRow h, columns_firstRow h, readBytes_padRight,
    Text.takeWhile_append hdigits hend, Text.dropWhile_append hdigits hend, hnumber]
  rfl

/-! ## Lines -/

/-- A first row is longer than the columns for bytes. -/
theorem readRow_firstRow (h : bytes.length ≤ 3) (more : List UInt8) (lines : List ListingEntry) :
    readRow (line.firstRow bytes) (more, lines) =
      ([], { line with bytes := bytes ++ more } :: lines) := by
  have hlong : ¬ (line.firstRow bytes).length < 9 := by
    rw [ListingEntry.firstRow, List.append_assoc, List.length_append, length_columns h]
    omega
  rw [readRow, if_neg hlong, readFirst_firstRow h]

/-- Rows of bytes only are shorter. -/
theorem foldr_hexRow {chunks : List (List UInt8)} (h : ∀ chunk ∈ chunks, chunk.length ≤ 3)
    (lines : List ListingEntry) :
    (chunks.map ListingEntry.hexRow).foldr readRow ([], lines) = (chunks.flatten, lines) := by
  induction chunks with
  | nil => rfl
  | cons chunk rest ih =>
    obtain ⟨hchunk, hrest⟩ := List.forall_mem_cons.mp h
    have hshort : (ListingEntry.hexRow chunk).length < 9 := by
      rw [ListingEntry.length_hexRow]
      omega
    rw [List.map_cons, List.foldr_cons, ih hrest, readRow, if_pos hshort, readBytes_hexRow,
      List.flatten_cons]

/-- The rows of a line give the line, in front of those below it. -/
theorem foldr_rows (line : ListingEntry) (lines : List ListingEntry) :
    line.rows.foldr readRow ([], lines) = ([], line :: lines) := by
  have hshort : ∀ chunk ∈ ListingEntry.chunks line.bytes, chunk.length ≤ 3 :=
    fun _ => ListingEntry.length_of_mem_chunks
  have hflatten := ListingEntry.flatten_chunks line.bytes
  unfold ListingEntry.rows
  cases hchunks : ListingEntry.chunks line.bytes with
  | nil =>
    rw [hchunks, List.flatten_nil] at hflatten
    have hnone : ([] : List UInt8).length ≤ 3 := Nat.zero_le 3
    rw [List.foldr_cons, List.foldr_nil, readRow_firstRow hnone, List.append_nil, hflatten]
  | cons first rest =>
    rw [hchunks] at hshort
    rw [hchunks, List.flatten_cons] at hflatten
    obtain ⟨hfirst, hrest⟩ := List.forall_mem_cons.mp hshort
    dsimp only
    rw [List.foldr_cons, foldr_hexRow hrest, readRow_firstRow hfirst, hflatten]

/-! ## Rows without line feeds -/

theorem not_mem_hexRow (bytes : List UInt8) : '\n' ∉ ListingEntry.hexRow bytes := by
  induction bytes with
  | nil => exact List.not_mem_nil
  | cons a rest ih =>
    cases rest with
    | nil => simpa [ListingEntry.hexRow] using Numeral.not_mem_hexByte a
    | cons b rest =>
      rw [ListingEntry.hexRow_cons_cons, List.mem_append, List.mem_cons, not_or, not_or]
      exact ⟨Numeral.not_mem_hexByte a, by decide, ih⟩

theorem not_mem_firstRow (h : '\n' ∉ line.source) (bytes : List UInt8) :
    '\n' ∉ line.firstRow bytes := by
  have hnumber : '\n' ∉ Numeral.decimal line.number := fun hc => by
    cases Nat.isDigit_of_mem_toDigits (by decide) (by decide) hc
  simp [ListingEntry.firstRow, Text.padRight, Text.padLeft, List.mem_replicate, not_mem_hexRow,
    hnumber, h]

theorem not_mem_row {row : Text} (h : '\n' ∉ line.source) (hrow : row ∈ line.rows) :
    '\n' ∉ row := by
  unfold ListingEntry.rows at hrow
  split at hrow
  · obtain rfl := List.mem_singleton.mp hrow
    exact not_mem_firstRow h []
  · next first rest _ =>
    rcases List.mem_cons.mp hrow with rfl | hrow
    · exact not_mem_firstRow h first
    · obtain ⟨chunk, -, rfl⟩ := List.mem_map.mp hrow
      exact not_mem_hexRow chunk

/-- Rows are found again between the line feeds, with nothing behind the last one. -/
theorem splitOn_rows {rows : List Text} (h : ∀ row ∈ rows, '\n' ∉ row) :
    Text.splitOn '\n' (rows.flatMap fun row => row ++ ['\n']) = rows ++ [[]] := by
  induction rows with
  | nil => rfl
  | cons row rest ih =>
    obtain ⟨hrow, hrest⟩ := List.forall_mem_cons.mp h
    have hrows := ih hrest
    rw [Text.splitOn] at hrows ⊢
    rw [List.flatMap_cons, List.append_assoc, Text.cut_append hrow, List.singleton_append,
      Text.cut_cons, if_pos rfl, List.append_nil, hrows]
    rfl

/-- What was printed is read back. -/
theorem read_text {lines : List ListingEntry} (h : ∀ line ∈ lines, '\n' ∉ line.source) :
    read (text lines) = lines := by
  have hrows : ∀ row ∈ lines.flatMap ListingEntry.rows, '\n' ∉ row := by
    intro row hrow
    obtain ⟨line, hline, hrow⟩ := List.mem_flatMap.mp hrow
    exact not_mem_row (h line hline) hrow
  have hread (lines : List ListingEntry) :
      (lines.flatMap ListingEntry.rows).foldr readRow ([], []) = ([], lines) := by
    induction lines with
    | nil => rfl
    | cons line rest ih => rw [List.flatMap_cons, List.foldr_append, ih, foldr_rows]
  have hlast : readRow [] ([], []) = ([], []) := rfl
  rw [read, text, splitOn_rows hrows, List.foldr_append, List.foldr_cons, List.foldr_nil, hlast,
    hread]

end Listing

/-! ## Listings of assemblies -/

/-- A line holds no line feed. -/
theorem Text.not_mem_of_mem_lines {t line : Text} (h : line ∈ t.lines) : '\n' ∉ line := by
  obtain ⟨hfirst, hrest⟩ := Text.not_mem_cut '\n' t
  unfold Text.lines at h
  generalize (cut '\n' t).1 = first at h hfirst
  generalize (cut '\n' t).2 = rest at h hrest
  induction rest generalizing first with
  | nil =>
    unfold linesOfPieces at h
    split at h
    · cases h
    · rwa [List.mem_singleton.mp h]
  | cons next rest ih =>
    rcases List.mem_cons.mp h with rfl | h
    · unfold dropReturn
      split
      · exact fun hc => hfirst (List.mem_of_mem_dropLast hc)
      · exact hfirst
    · obtain ⟨hnext, hothers⟩ := List.forall_mem_cons.mp hrest
      exact ih next hnext h hothers

namespace Assembly

variable (start : Address) (source : Text)

theorem binary_eq_listing (a : Assembly) : a.binary = a.listing.flatMap ListingEntry.bytes := by
  rw [listing, List.flatMap_map]
  rfl

theorem sources_listing : (ofText start source).listing.map ListingEntry.source = source.lines := by
  rw [listing, List.map_map]
  exact State.sources_run _ .second 1 source.lines

theorem read_text_listing :
    Listing.read (Listing.text (ofText start source).listing) = (ofText start source).listing := by
  refine Listing.read_text fun line hline => Text.not_mem_of_mem_lines (t := source) ?_
  rw [← sources_listing start source]
  exact List.mem_map_of_mem hline

end Assembly

/-- However the sources look and however many bytes there are, the printed text tells the lines
apart and gives all of each back. So a printed listing determines the image and the source lines
of its assembly. -/
theorem Listing.readsBack :
    (∀ lines : List ListingEntry, (∀ line ∈ lines, '\n' ∉ line.source) →
      read (text lines) = lines) ∧
    ∀ (start : Address) (source : Text),
      (read (text (Assembly.ofText start source).listing)).flatMap ListingEntry.bytes =
          (Assembly.ofText start source).binary ∧
        (read (text (Assembly.ofText start source).listing)).map ListingEntry.source =
          source.lines := by
  refine ⟨fun lines => read_text, fun start source => ?_⟩
  rw [Assembly.read_text_listing, Assembly.binary_eq_listing, Assembly.sources_listing]
  exact ⟨rfl, rfl⟩

/-- A number too wide for its column, sources that look like rows of bytes or like first rows, and
bytes on three rows. -/
theorem Listing.deceptive_readsBack :
    let lines : List ListingEntry :=
      [⟨12345, "  7  41 42".toList, [1, 2, 3, 4, 5, 6, 255]⟩, ⟨0, [], []⟩,
        ⟨6, "00 11 22     7  NOP\r".toList, [0]⟩]
    (∀ line ∈ lines, '\n' ∉ line.source) ∧ read (text lines) = lines := by
  intro lines
  have plain : ∀ line ∈ lines, '\n' ∉ line.source := by decide
  exact ⟨plain, readsBack.1 lines plain⟩

end Asm65
