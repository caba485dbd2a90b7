import Difz.Wire.Checked
import Difz.Wire.Simulation

/-!
# Windows access control lists on the machine

Capture and restoration of a native access control list (`canonicalWindows`, `validateWindows` and
the Windows branch of `restore` in `src/native_acl.zig`), with the index, slice and integer
operations of the source left in. The list states its own size, which may include unused capacity
behind the entries. Capture takes that capacity away, `canonicalWindows_exact`; the second walk
over the entries has no checks and needs none.
-/

namespace Difz

open Wire

namespace Machine

namespace NativeAcl

inductive Error
  | invalidAcl
  deriving DecidableEq, Repr

/-- `std.mem.readInt(u16, bytes, .little)`. -/
def readU16 (bytes : List UInt8) : Nat := (fromLeBytes bytes : UInt16).toNat

/-- The length in the header of the entry at an offset. -/
def lengthAt (acl : List UInt8) (offset : Nat) : Checked Error Nat := do
  let position ← Checked.add 64 offset 2
  let rest ← Checked.slice acl position acl.length
  let word ← Checked.slice rest 0 2
  .ok (readU16 word)

def validateEntries (acl : List UInt8) : Nat → Nat → Checked Error Unit
  | 0, _ => .ok ()
  | count + 1, offset => do
    let left ← Checked.sub acl.length offset
    ensure (¬left < 4) (.error .invalidAcl)
    let length ← lengthAt acl offset
    let invalid ← Checked.or (length < 4 || length % 4 != 0) do
      let left ← Checked.sub acl.length offset
      .ok (decide (length > left))
    ensure (¬invalid) (.error .invalidAcl)
    let offset ← Checked.add 64 offset length
    validateEntries acl count offset

def validateWindows (bytes : List UInt8) : Checked Error Unit := do
  let invalid ← Checked.or bytes.isEmpty do
    let flag ← Checked.index bytes 0
    .ok (decide (flag > 1))
  ensure (¬invalid) (.error .invalidAcl)
  if bytes.length = 1 then .ok ()
  else do
    let acl ← Checked.slice bytes 1 bytes.length
    let invalid ← Checked.or (acl.length < 8) do
      let revision ← Checked.index acl 0
      Checked.or (revision != 2 && revision != 4) do
        let reserved ← Checked.index acl 1
        Checked.or (reserved != 0) do
          let size ← Checked.slice acl 2 4
          Checked.or (readU16 size != acl.length) do
            let reserved ← Checked.slice acl 6 8
            .ok (readU16 reserved != 0)
    ensure (¬invalid) (.error .invalidAcl)
    let count ← Checked.slice acl 4 6
    validateEntries acl (readU16 count) 8

/-- The walk over the entries of a list that was validated. -/
def usedLoop (acl : List UInt8) : Nat → Nat → Checked Error Nat
  | 0, used => .ok used
  | count + 1, used => do
    let length ← lengthAt acl used
    let used ← Checked.add 64 used length
    usedLoop acl count used

def canonicalWindows (protected_ : Bool) (acl : List UInt8) : Checked Error (List UInt8) := do
  let bytes := protected_.toNat.toUInt8 :: acl
  validateWindows bytes
  if acl.length = 0 then .ok bytes
  else do
    let count ← Checked.slice acl 4 6
    let used ← usedLoop acl (readU16 count) 8
    let size ← Checked.unsigned 16 used
    let _ ← Checked.slice bytes 3 5
    let bytes := bytes.take 3 ++ toLeBytes (UInt16.ofNat size) ++ bytes.drop 5
    let end_ ← Checked.add 64 1 used
    Checked.slice bytes 0 end_

/-- What `restore` hands to the system: the list, if there is one, and the protection. -/
def restoreWindows (bytes : List UInt8) : Checked Error (Option (List UInt8) × UInt32) := do
  validateWindows bytes
  let length ← Checked.sub bytes.length 1
  let source ← Checked.slice bytes 1 bytes.length
  -- `@memcpy` needs both sides to have one length.
  ensure (source.length = length) .panic
  let flag ← Checked.index bytes 0
  .ok (if length = 0 then none else some source, if flag = 1 then 0x80000000 else 0x20000000)

/-! ### Lists of entries -/

/-- The bytes of an entry, which state their own number. -/
structure Entry (bytes : List UInt8) : Prop where
  header : 4 ≤ bytes.length
  aligned : bytes.length % 4 = 0
  sized : readU16 (field bytes 2 4) = bytes.length

/-- The revision and the entries of a list. -/
structure WindowsAcl where
  revision : UInt8
  entries : List (List UInt8)
  known : revision = 2 ∨ revision = 4
  proper : ∀ entry ∈ entries, Entry entry
  count : entries.length < 2 ^ 16

namespace WindowsAcl

/-- The bytes in use. -/
def used (acl : WindowsAcl) : Nat := 8 + acl.entries.flatten.length

/-- The bytes of a list around its size field, with unused capacity at the end. -/
def around (acl : WindowsAcl) (size slack : List UInt8) : List UInt8 :=
  [acl.revision, 0] ++ (size ++ (toLeBytes (UInt16.ofNat acl.entries.length) ++ ([0, 0] ++
    (acl.entries.flatten ++ slack))))

/-- The bytes of a list, whose size field counts the unused capacity as well. -/
def bytes (acl : WindowsAcl) (slack : List UInt8) : List UInt8 :=
  acl.around (toLeBytes (UInt16.ofNat (acl.used + slack.length))) slack

end WindowsAcl

/-- Some entries at the start of the bytes. -/
def Entries (count : Nat) (bytes : List UInt8) : Prop :=
  ∃ (entries : List (List UInt8)) (slack : List UInt8), entries.length = count ∧
    (∀ entry ∈ entries, Entry entry) ∧ bytes = entries.flatten ++ slack

lemma entries_zero (bytes : List UInt8) : Entries 0 bytes := ⟨[], bytes, rfl, by simp, rfl⟩

/-- The first entry has the length that its header states. -/
lemma entries_succ {count : Nat} {bytes : List UInt8} : Entries (count + 1) bytes ↔
    (4 ≤ bytes.length ∧ 4 ≤ readU16 (field bytes 2 4) ∧ readU16 (field bytes 2 4) % 4 = 0 ∧
      readU16 (field bytes 2 4) ≤ bytes.length) ∧
    Entries count (bytes.drop (readU16 (field bytes 2 4))) := by
  constructor
  · rintro ⟨entries, slack, hcount, hproper, rfl⟩
    obtain ⟨entry, entries, rfl⟩ := List.exists_cons_of_length_eq_add_one hcount
    obtain ⟨⟨hheader, haligned, hsized⟩, hproper⟩ := List.forall_mem_cons.mp hproper
    have hfield : field ((entry :: entries).flatten ++ slack) 2 4 = field entry 2 4 := by
      rw [List.flatten_cons, List.append_assoc, field, field,
        List.take_append_of_le_length hheader]
    rw [hfield, hsized, List.flatten_cons, List.append_assoc, List.drop_left, List.length_append]
    refine ⟨⟨by omega, hheader, haligned, by omega⟩, entries, slack, ?_, hproper, rfl⟩
    simpa using hcount
  · rintro ⟨⟨hlen, hheader, haligned, hle⟩, entries, slack, rfl, hproper, hdrop⟩
    have hlength : (bytes.take (readU16 (field bytes 2 4))).length = readU16 (field bytes 2 4) := by
      rw [List.length_take, Nat.min_eq_left hle]
    have hfield : field (bytes.take (readU16 (field bytes 2 4))) 2 4 = field bytes 2 4 := by
      rw [field, List.take_take, Nat.min_eq_left hheader, field]
    refine ⟨bytes.take (readU16 (field bytes 2 4)) :: entries, slack, rfl, ?_, ?_⟩
    · refine List.forall_mem_cons.mpr ⟨⟨?_, ?_, ?_⟩, hproper⟩
      · rwa [hlength]
      · rwa [hlength]
      · rw [hfield, hlength]
    · rw [List.flatten_cons, List.append_assoc, ← hdrop, List.take_append_drop]

lemma lengthAt_eq {acl : List UInt8} {offset : Nat} (h : offset + 4 ≤ acl.length)
    (hfits : acl.length < 2 ^ 64) :
    lengthAt acl offset = .ok (readU16 (field (acl.drop offset) 2 4)) := by
  have hlen : 2 ≤ (acl.drop (offset + 2)).length := by
    rw [List.length_drop]
    omega
  rw [lengthAt, Checked.add_of_lt (by omega), ok_bind, Checked.slice_drop (by omega), ok_bind,
    Checked.slice_take hlen, ok_bind, field, List.drop_take, List.drop_drop]

/-- The checks of the loop are those of the first entry, over and over. -/
lemma validateEntries_cases {acl : List UInt8} (hfits : acl.length < 2 ^ 64) {count offset : Nat}
    (hle : offset ≤ acl.length) :
    (validateEntries acl count offset = .ok () ∧ Entries count (acl.drop offset)) ∨
    (validateEntries acl count offset = Checked.fail .invalidAcl ∧
      ¬Entries count (acl.drop offset)) := by
  induction count generalizing offset with
  | zero => exact .inl ⟨rfl, entries_zero _⟩
  | succ count ih =>
    have hlen : (acl.drop offset).length = acl.length - offset := List.length_drop
    rw [validateEntries, Checked.sub_of_le hle, ok_bind, entries_succ, hlen]
    by_cases hfour : acl.length - offset < 4
    · rw [ensure_neg (not_not.mpr hfour)]
      exact .inr ⟨rfl, fun h => absurd h.1.1 (by omega)⟩
    · rw [ensure_pos hfour, ok_bind, lengthAt_eq (by omega) hfits, ok_bind]
      generalize readU16 (field (acl.drop offset) 2 4) = length
      rw [ok_bind, Checked.or_ok, ok_bind]
      by_cases hvalid : 4 ≤ length ∧ length % 4 = 0 ∧ length ≤ acl.length - offset
      · rw [ensure_pos (by simp; omega), ok_bind, Checked.add_of_lt (by omega), ok_bind,
          List.drop_drop]
        obtain ⟨hrun, hentries⟩ | ⟨hrun, hentries⟩ := @ih (offset + length) (by omega)
        · exact .inl ⟨hrun, ⟨by omega, hvalid⟩, hentries⟩
        · exact .inr ⟨hrun, fun h => hentries h.2⟩
      · rw [ensure_neg (by simp; omega)]
        exact .inr ⟨rfl, fun h => hvalid h.1.2⟩

/-! ### Validation -/

lemma readU16_lt (bytes : List UInt8) : readU16 bytes < 2 ^ 16 :=
  (fromLeBytes bytes : UInt16).toNat_lt

lemma readU16_toLeBytes {n : Nat} (h : n < 2 ^ 16) :
    readU16 (toLeBytes (UInt16.ofNat n)) = n := by
  rw [readU16, fromLeBytes_toLeBytes, UInt16.toNat_ofNat_of_lt' h]

lemma toLeBytes_readU16 {word : List UInt8} (h : word.length = 2) :
    toLeBytes (UInt16.ofNat (readU16 word)) = word := by
  rw [readU16, UInt16.ofNat_toNat]
  exact toLeBytes_fromLeBytes h

/-- A native record: the protection, and the list unless there is none. -/
def Accepted (bytes : List UInt8) : Prop :=
  ∃ flag : UInt8, flag ≤ 1 ∧ (bytes = [flag] ∨ ∃ (acl : WindowsAcl) (slack : List UInt8),
    acl.used + slack.length < 2 ^ 16 ∧ bytes = flag :: acl.bytes slack)

lemma WindowsAcl.length_around (acl : WindowsAcl) (size slack : List UInt8) :
    (acl.around size slack).length = acl.entries.flatten.length + slack.length + size.length + 6 := by
  have hcount : (toLeBytes (UInt16.ofNat acl.entries.length)).length = 2 := length_toLeBytes _
  simp only [around, List.length_append, hcount, List.length_cons, List.length_nil]
  omega

lemma WindowsAcl.length_bytes (acl : WindowsAcl) (slack : List UInt8) :
    (acl.bytes slack).length = acl.used + slack.length := by
  have hsize : (toLeBytes (UInt16.ofNat (acl.used + slack.length))).length = 2 :=
    length_toLeBytes _
  rw [bytes, length_around, hsize, used]
  omega

/-- A list of entries by its header. -/
lemma bytes_iff {r z s₀ s₁ c₀ c₁ z₀ z₁ : UInt8} {rest : List UInt8} :
    (∃ (acl : WindowsAcl) (slack : List UInt8), acl.used + slack.length < 2 ^ 16 ∧
      r :: z :: s₀ :: s₁ :: c₀ :: c₁ :: z₀ :: z₁ :: rest = acl.bytes slack) ↔
    ((r = 2 ∨ r = 4) ∧ z = 0 ∧ readU16 [s₀, s₁] = 8 + rest.length ∧ readU16 [z₀, z₁] = 0) ∧
      Entries (readU16 [c₀, c₁]) rest := by
  constructor
  · rintro ⟨acl, slack, hfits, h⟩
    have hlen := congrArg List.length h
    rw [acl.length_bytes] at hlen
    have hsize := readU16_toLeBytes hfits
    have hcount := readU16_toLeBytes acl.count
    obtain ⟨a₀, a₁, ha⟩ : ∃ a₀ a₁, toLeBytes (UInt16.ofNat (acl.used + slack.length)) = [a₀, a₁] :=
      ⟨_, _, rfl⟩
    obtain ⟨b₀, b₁, hb⟩ : ∃ b₀ b₁, toLeBytes (UInt16.ofNat acl.entries.length) = [b₀, b₁] :=
      ⟨_, _, rfl⟩
    simp only [WindowsAcl.bytes, WindowsAcl.around, ha, hb, List.cons_append, List.nil_append,
      List.cons.injEq] at h
    obtain ⟨rfl, rfl, rfl, rfl, rfl, rfl, rfl, rfl, rfl⟩ := h
    rw [← ha, ← hb, hsize, hcount]
    simp only [List.length_cons] at hlen
    exact ⟨⟨acl.known, rfl, by omega, rfl⟩, acl.entries, slack, rfl, acl.proper, rfl⟩
  · rintro ⟨⟨hr, rfl, hsize, hzero⟩, entries, slack, hcount, hproper, rfl⟩
    have hs : toLeBytes (UInt16.ofNat (readU16 [s₀, s₁])) = [s₀, s₁] := toLeBytes_readU16 rfl
    have hc : toLeBytes (UInt16.ofNat (readU16 [c₀, c₁])) = [c₀, c₁] := toLeBytes_readU16 rfl
    have hz : toLeBytes (UInt16.ofNat (readU16 [z₀, z₁])) = [z₀, z₁] := toLeBytes_readU16 rfl
    have hlt := readU16_lt [s₀, s₁]
    rw [hsize, List.length_append, ← Nat.add_assoc] at hs hlt
    rw [hzero] at hz
    rw [← hcount] at hc
    refine ⟨⟨r, entries, hr, hproper, hcount ▸ readU16_lt _⟩, slack, hlt, ?_⟩
    rw [WindowsAcl.bytes, WindowsAcl.around, WindowsAcl.used, hs, hc]
    have hzeros : [0, 0] = [z₀, z₁] := hz
    obtain ⟨rfl, rfl⟩ : 0 = z₀ ∧ 0 = z₁ := by simpa using hzeros
    rfl

lemma exists_header {acl : List UInt8} (h : 8 ≤ acl.length) :
    ∃ r z s₀ s₁ c₀ c₁ z₀ z₁ rest, acl = r :: z :: s₀ :: s₁ :: c₀ :: c₁ :: z₀ :: z₁ :: rest := by
  match acl, h with
  | r :: z :: s₀ :: s₁ :: c₀ :: c₁ :: z₀ :: z₁ :: rest, _ =>
    exact ⟨r, z, s₀, s₁, c₀, c₁, z₀, z₁, rest, rfl⟩

lemma validateWindows_flag {flag : UInt8} {acl : List UInt8} (hflag : ¬flag ≤ 1) :
    validateWindows (flag :: acl) = Checked.fail .invalidAcl := by
  have hinvalid : (Checked.or (flag :: acl).isEmpty do
      let flag ← Checked.index (flag :: acl) 0
      .ok (decide (flag > 1)) : Checked Error Bool) = .ok (decide (flag > 1)) := rfl
  rw [validateWindows, hinvalid, ok_bind, ensure_neg (by simpa using hflag)]
  rfl

/-- The chain of checks on the header. -/
lemma validateWindows_header {flag r z s₀ s₁ c₀ c₁ z₀ z₁ : UInt8} {rest : List UInt8}
    (hflag : flag ≤ 1) :
    validateWindows (flag :: r :: z :: s₀ :: s₁ :: c₀ :: c₁ :: z₀ :: z₁ :: rest) =
      ensure ((r = 2 ∨ r = 4) ∧ z = 0 ∧ readU16 [s₀, s₁] = 8 + rest.length ∧
        readU16 [z₀, z₁] = 0) (.error .invalidAcl) >>= fun _ =>
      validateEntries (r :: z :: s₀ :: s₁ :: c₀ :: c₁ :: z₀ :: z₁ :: rest) (readU16 [c₀, c₁]) 8 := by
  generalize hacl : r :: z :: s₀ :: s₁ :: c₀ :: c₁ :: z₀ :: z₁ :: rest = acl
  have hinvalid : (Checked.or (flag :: acl).isEmpty do
      let flag ← Checked.index (flag :: acl) 0
      .ok (decide (flag > 1)) : Checked Error Bool) = .ok (decide (flag > 1)) := rfl
  have hlength : acl.length = 8 + rest.length := by
    rw [← hacl]
    simp only [List.length_cons]
    omega
  have hslice : (Checked.slice (flag :: acl) 1 (flag :: acl).length : Checked Error _) = .ok acl :=
    Checked.slice_drop (by simp)
  have hindex₀ : (Checked.index acl 0 : Checked Error UInt8) = .ok r := by rw [← hacl]; rfl
  have hindex₁ : (Checked.index acl 1 : Checked Error UInt8) = .ok z := by rw [← hacl]; rfl
  have hsize : (Checked.slice acl 2 4 : Checked Error _) = .ok [s₀, s₁] := by
    rw [Checked.slice_of_le (by omega) (by omega), ← hacl]
    rfl
  have hcount : (Checked.slice acl 4 6 : Checked Error _) = .ok [c₀, c₁] := by
    rw [Checked.slice_of_le (by omega) (by omega), ← hacl]
    rfl
  have hzero : (Checked.slice acl 6 8 : Checked Error _) = .ok [z₀, z₁] := by
    rw [Checked.slice_of_le (by omega) (by omega), ← hacl]
    rfl
  rw [validateWindows, hinvalid, ok_bind, ensure_pos (by simpa using hflag), ok_bind,
    if_neg (by rw [List.length_cons]; omega), hslice, ok_bind, hindex₀, ok_bind, hindex₁, ok_bind,
    hsize, ok_bind, hzero, ok_bind, hcount, Checked.or_ok, Checked.or_ok, Checked.or_ok,
    Checked.or_ok, ok_bind, ok_bind]
  congr 1
  refine if_congr ?_ rfl rfl
  rw [← hlength]
  simp only [Bool.or_eq_true, Bool.and_eq_true, decide_eq_true_eq, bne_iff_ne, not_or, not_and,
    not_not, ne_eq, not_lt]
  constructor
  · rintro ⟨-, hr, hz, hs, hzeros⟩
    exact ⟨or_iff_not_imp_left.mpr hr, hz, hs, hzeros⟩
  · rintro ⟨hr, hz, hs, hzeros⟩
    exact ⟨by omega, or_iff_not_imp_left.mp hr, hz, hs, hzeros⟩

lemma validateWindows_short {flag : UInt8} {acl : List UInt8} (hflag : flag ≤ 1)
    (hshort : acl.length < 8) : validateWindows (flag :: acl) =
      if acl = [] then .ok () else Checked.fail .invalidAcl := by
  have hinvalid : (Checked.or (flag :: acl).isEmpty do
      let flag ← Checked.index (flag :: acl) 0
      .ok (decide (flag > 1)) : Checked Error Bool) = .ok (decide (flag > 1)) := rfl
  rw [validateWindows, hinvalid, ok_bind, ensure_pos (by simpa using hflag), ok_bind]
  refine if_congr (by simp) rfl ?_
  rw [Checked.slice_drop (by simp), ok_bind, List.drop_one, List.tail_cons, decide_eq_true hshort]
  rfl

lemma accepted_cons {flag : UInt8} {acl : List UInt8} : Accepted (flag :: acl) ↔ flag ≤ 1 ∧
    (acl = [] ∨ ∃ (list : WindowsAcl) (slack : List UInt8), list.used + slack.length < 2 ^ 16 ∧
      acl = list.bytes slack) := by
  simp only [Accepted, List.cons.injEq]
  constructor
  · rintro ⟨flag, hle, ⟨rfl, hacl⟩ | ⟨list, slack, hfits, rfl, hacl⟩⟩
    · exact ⟨hle, .inl hacl⟩
    · exact ⟨hle, .inr ⟨list, slack, hfits, hacl⟩⟩
  · rintro ⟨hle, hacl | ⟨list, slack, hfits, hacl⟩⟩
    · exact ⟨flag, hle, .inl ⟨rfl, hacl⟩⟩
    · exact ⟨flag, hle, .inr ⟨list, slack, hfits, rfl, hacl⟩⟩

/-- Validation always comes to a verdict, which is whether the bytes are those of a list. -/
lemma validateWindows_cases (bytes : List UInt8) :
    (validateWindows bytes = .ok () ∧ Accepted bytes) ∨
    (validateWindows bytes = Checked.fail .invalidAcl ∧ ¬Accepted bytes) := by
  match bytes with
  | [] => exact .inr ⟨rfl, by rintro ⟨flag, -, h | ⟨acl, slack, -, h⟩⟩ <;> simp at h⟩
  | flag :: acl =>
    rw [accepted_cons]
    by_cases hflag : flag ≤ 1
    · by_cases hshort : acl.length < 8
      · rw [validateWindows_short hflag hshort]
        split_ifs with hacl
        · exact .inl ⟨rfl, hflag, .inl hacl⟩
        · refine .inr ⟨rfl, ?_⟩
          rintro ⟨-, hempty | ⟨list, slack, -, rfl⟩⟩
          · exact hacl hempty
          · rw [list.length_bytes, WindowsAcl.used] at hshort
            omega
      · obtain ⟨r, z, s₀, s₁, c₀, c₁, z₀, z₁, rest, rfl⟩ := exists_header (not_lt.mp hshort)
        rw [validateWindows_header hflag, bytes_iff]
        by_cases hheader : (r = 2 ∨ r = 4) ∧ z = 0 ∧ readU16 [s₀, s₁] = 8 + rest.length ∧
            readU16 [z₀, z₁] = 0
        · have hlt := readU16_lt [s₀, s₁]
          have hfits : (r :: z :: s₀ :: s₁ :: c₀ :: c₁ :: z₀ :: z₁ :: rest).length < 2 ^ 64 := by
            simp only [List.length_cons]
            omega
          rw [ensure_pos hheader, ok_bind]
          obtain ⟨hrun, hentries⟩ | ⟨hrun, hentries⟩ :=
            @validateEntries_cases _ hfits (readU16 [c₀, c₁]) 8 (not_lt.mp hshort)
          · exact .inl ⟨hrun, hflag, .inr ⟨hheader, hentries⟩⟩
          · exact .inr ⟨hrun, fun h => hentries (h.2.resolve_left (by simp)).2⟩
        · rw [ensure_neg hheader]
          exact .inr ⟨rfl, fun h => hheader (h.2.resolve_left (by simp)).1⟩
    · exact .inr ⟨validateWindows_flag hflag, fun h => hflag h.1⟩

lemma validateWindows_eq_ok {bytes : List UInt8} :
    validateWindows bytes = .ok () ↔ Accepted bytes := by
  obtain ⟨hrun, haccepted⟩ | ⟨hrun, haccepted⟩ := validateWindows_cases bytes
  · exact iff_of_true hrun haccepted
  · rw [hrun]
    exact iff_of_false (by simp [Checked.fail]) haccepted

/-! ### Capture -/

lemma Entry.sized_append {entry : List UInt8} (h : Entry entry) (rest : List UInt8) :
    readU16 (field (entry ++ rest) 2 4) = entry.length := by
  rw [field, List.take_append_of_le_length h.header]
  exact h.sized

/-- Validated lengths stay in range the second time. -/
lemma usedLoop_eq {acl : List UInt8} (hfits : acl.length < 2 ^ 64) {entries : List (List UInt8)}
    {slack : List UInt8} (hproper : ∀ entry ∈ entries, Entry entry) {used : Nat}
    (hle : used ≤ acl.length) (hdrop : acl.drop used = entries.flatten ++ slack) :
    usedLoop acl entries.length used = .ok (used + entries.flatten.length) := by
  induction entries generalizing used with
  | nil => rfl
  | cons entry entries ih =>
    obtain ⟨hentry, hproper⟩ := List.forall_mem_cons.mp hproper
    rw [List.flatten_cons, List.append_assoc] at hdrop
    have hlen := congrArg List.length hdrop
    rw [List.length_drop, List.length_append] at hlen
    have hheader := hentry.header
    have hrest : acl.drop (used + entry.length) = entries.flatten ++ slack := by
      rw [← List.drop_drop, hdrop, List.drop_left]
    rw [List.length_cons, usedLoop, lengthAt_eq (by omega) hfits, ok_bind, hdrop,
      hentry.sized_append, Checked.add_of_lt (by omega), ok_bind,
      ih hproper (by omega) hrest, List.flatten_cons, List.length_append, Nat.add_assoc]

lemma flag_le (protected_ : Bool) : protected_.toNat.toUInt8 ≤ 1 := by
  cases protected_ <;> decide

/-- Capture writes the number of used bytes over the size and cuts the list there. -/
lemma canonicalWindows_bytes (protected_ : Bool) (acl : WindowsAcl) {slack : List UInt8}
    (hfits : acl.used + slack.length < 2 ^ 16) : canonicalWindows protected_ (acl.bytes slack) =
      .ok (protected_.toNat.toUInt8 :: acl.bytes []) := by
  have hvalid : validateWindows (protected_.toNat.toUInt8 :: acl.bytes slack) = .ok () :=
    validateWindows_eq_ok.mpr (accepted_cons.mpr ⟨flag_le _, .inr ⟨acl, slack, hfits, rfl⟩⟩)
  have hlength := acl.length_bytes slack
  have hused : 8 ≤ acl.used := Nat.le_add_right _ _
  have hcount : (Checked.slice (acl.bytes slack) 4 6 : Checked Error _) =
      .ok (toLeBytes (UInt16.ofNat acl.entries.length)) := by
    rw [Checked.slice_of_le (by omega) (by omega)]
    rfl
  have hdrop : (acl.bytes slack).drop 8 = acl.entries.flatten ++ slack := rfl
  have hwalk : usedLoop (acl.bytes slack) acl.entries.length 8 = .ok acl.used :=
    usedLoop_eq (by omega) acl.proper (by omega) hdrop
  have hspan : (Checked.slice (protected_.toNat.toUInt8 :: acl.bytes slack) 3 5 : Checked Error _) =
      .ok (toLeBytes (UInt16.ofNat (acl.used + slack.length))) := by
    rw [Checked.slice_of_le (by omega) (by rw [List.length_cons]; omega)]
    rfl
  have hcast : (Checked.unsigned 16 acl.used : Checked Error Nat) = .ok acl.used := by
    rw [Checked.unsigned_of_mem (by omega) (by omega), Int.toNat_natCast]
  have hwritten : (protected_.toNat.toUInt8 :: acl.bytes slack).take 3 ++
      toLeBytes (UInt16.ofNat acl.used) ++ (protected_.toNat.toUInt8 :: acl.bytes slack).drop 5 =
      (protected_.toNat.toUInt8 :: acl.bytes []) ++ slack := by
    change [_, acl.revision, 0] ++ _ ++ (toLeBytes (UInt16.ofNat acl.entries.length) ++ ([0, 0] ++
      (acl.entries.flatten ++ slack))) = _
    simp [WindowsAcl.bytes, WindowsAcl.around]
  have hend : (protected_.toNat.toUInt8 :: acl.bytes []).length = 1 + acl.used := by
    rw [List.length_cons, acl.length_bytes, List.length_nil, Nat.add_comm, Nat.add_zero]
  rw [canonicalWindows, hvalid, ok_bind, if_neg (by omega), hcount, ok_bind,
    readU16_toLeBytes acl.count, hwalk, ok_bind, hcast, ok_bind, hspan, ok_bind, hwritten,
    Checked.add_of_lt (by omega), ok_bind,
    Checked.slice_take (by rw [List.length_append, hend]; omega), List.take_left' hend]

lemma canonicalWindows_nil (protected_ : Bool) :
    canonicalWindows protected_ [] = .ok [protected_.toNat.toUInt8] := by
  have hvalid : validateWindows [protected_.toNat.toUInt8] = .ok () :=
    validateWindows_eq_ok.mpr (accepted_cons.mpr ⟨flag_le _, .inl rfl⟩)
  rw [canonicalWindows, hvalid, ok_bind, if_pos List.length_nil]

/-- The second list is the first one without its unused capacity, which its size leaves out. -/
def Trimmed (acl trimmed : List UInt8) : Prop :=
  (acl = [] ∧ trimmed = []) ∨ ∃ (list : WindowsAcl) (slack : List UInt8),
    list.used + slack.length < 2 ^ 16 ∧ acl = list.bytes slack ∧ trimmed = list.bytes []

lemma canonicalWindows_cases (protected_ : Bool) (acl : List UInt8) :
    (∃ trimmed, canonicalWindows protected_ acl = .ok (protected_.toNat.toUInt8 :: trimmed) ∧
      Accepted (protected_.toNat.toUInt8 :: acl) ∧ Trimmed acl trimmed) ∨
    (canonicalWindows protected_ acl = Checked.fail .invalidAcl ∧
      ¬Accepted (protected_.toNat.toUInt8 :: acl)) := by
  obtain ⟨-, haccepted⟩ | ⟨hrun, haccepted⟩ :=
    validateWindows_cases (protected_.toNat.toUInt8 :: acl)
  · obtain ⟨-, rfl | ⟨list, slack, hfits, rfl⟩⟩ := accepted_cons.mp haccepted
    · exact .inl ⟨_, canonicalWindows_nil protected_, haccepted, .inl ⟨rfl, rfl⟩⟩
    · exact .inl ⟨_, canonicalWindows_bytes protected_ list hfits, haccepted,
        .inr ⟨list, slack, hfits, rfl, rfl⟩⟩
  · refine .inr ⟨?_, haccepted⟩
    rw [canonicalWindows, hrun]
    rfl

/-- Nothing is left to take away. -/
lemma Trimmed.canonicalWindows {acl trimmed : List UInt8} (h : Trimmed acl trimmed)
    (protected_ : Bool) :
    canonicalWindows protected_ trimmed = .ok (protected_.toNat.toUInt8 :: trimmed) := by
  obtain ⟨-, rfl⟩ | ⟨list, slack, hfits, -, rfl⟩ := h
  · exact canonicalWindows_nil protected_
  · exact canonicalWindows_bytes protected_ list (by rw [List.length_nil]; omega)

lemma Trimmed.accepted {acl trimmed : List UInt8} (h : Trimmed acl trimmed) (protected_ : Bool) :
    Accepted (protected_.toNat.toUInt8 :: trimmed) := by
  obtain ⟨-, rfl⟩ | ⟨list, slack, hfits, -, rfl⟩ := h
  · exact accepted_cons.mpr ⟨flag_le _, .inl rfl⟩
  · exact accepted_cons.mpr ⟨flag_le _, .inr ⟨list, [], by rw [List.length_nil]; omega, rfl⟩⟩

/-- Two lists that differ at most in the size field and in the unused capacity. -/
def SameEntries (acl acl' : List UInt8) : Prop :=
  (acl = [] ∧ acl' = []) ∨
    ∃ (list : WindowsAcl) (size size' slack slack' : List UInt8), size.length = 2 ∧
      size'.length = 2 ∧ acl = list.around size slack ∧ acl' = list.around size' slack'

/-- There is one size that is accepted. -/
lemma WindowsAcl.around_eq_bytes {acl : WindowsAcl} {size slack : List UInt8} {flag : UInt8}
    (hsize : size.length = 2) (h : Accepted (flag :: acl.around size slack)) :
    acl.used + slack.length < 2 ^ 16 ∧ acl.around size slack = acl.bytes slack := by
  have hlen := acl.length_around size slack
  obtain ⟨-, hempty | ⟨list, slack', hfits, heq⟩⟩ := accepted_cons.mp h
  · rw [hempty, List.length_nil] at hlen
    omega
  · rw [heq, list.length_bytes, hsize] at hlen
    have hused : acl.used + slack.length = list.used + slack'.length := by
      rw [WindowsAcl.used]
      omega
    have hfield : size = toLeBytes (UInt16.ofNat (list.used + slack'.length)) := by
      have hword : (toLeBytes (UInt16.ofNat (list.used + slack'.length))).length = 2 :=
        length_toLeBytes _
      have hdrop := congrArg (fun bytes => (bytes.drop 2).take 2) heq
      exact (List.take_left' hsize).symm.trans (hdrop.trans (List.take_left' hword))
    rw [WindowsAcl.bytes, hused, ← hfield]
    exact ⟨hfits, rfl⟩

lemma canonicalWindows_around {protected_ : Bool} {acl : WindowsAcl} {size slack bytes : List UInt8}
    (hsize : size.length = 2) (h : canonicalWindows protected_ (acl.around size slack) = .ok bytes) :
    bytes = protected_.toNat.toUInt8 :: acl.bytes [] := by
  obtain ⟨-, -, haccepted, -⟩ | ⟨hrun, -⟩ := canonicalWindows_cases protected_ (acl.around size slack)
  · obtain ⟨hfits, heq⟩ := acl.around_eq_bytes hsize haccepted
    rw [heq, canonicalWindows_bytes protected_ acl hfits] at h
    exact (Except.ok.inj h).symm
  · rw [hrun] at h
    exact absurd h (by simp [Checked.fail])

/-- What `restore` reads of a record that was validated. -/
lemma restoreWindows_cons {flag : UInt8} {acl : List UInt8} (h : Accepted (flag :: acl)) :
    restoreWindows (flag :: acl) =
      .ok (if acl = [] then none else some acl, if flag = 1 then 0x80000000 else 0x20000000) := by
  have hindex : (Checked.index (flag :: acl) 0 : Checked Error UInt8) = .ok flag := rfl
  rw [restoreWindows, validateWindows_eq_ok.mpr h, ok_bind, List.length_cons,
    Checked.sub_of_le (by omega), ok_bind, ← List.length_cons, Checked.slice_drop (by simp),
    ok_bind, ensure_pos (by simp), ok_bind, hindex, ok_bind, List.drop_one, List.tail_cons]
  simp only [List.length_cons, Nat.add_sub_cancel, List.length_eq_zero_iff]

lemma restoreWindows_ne_panic (bytes : List UInt8) : restoreWindows bytes ≠ .error .panic := by
  obtain ⟨-, haccepted⟩ | ⟨hrun, -⟩ := validateWindows_cases bytes
  · cases bytes with
    | nil => exact absurd haccepted (by rintro ⟨flag, -, h | ⟨acl, slack, -, h⟩⟩ <;> simp at h)
    | cons flag acl =>
      rw [restoreWindows_cons haccepted]
      simp
  · rw [restoreWindows, hrun]
    simp [Checked.fail, error_bind]

/-- Capture succeeds on the lists that validation accepts, and takes away the unused capacity and
nothing else. Neither direction leaves the bytes that it reads. -/
theorem canonicalWindows_exact (protected_ : Bool) (acl : List UInt8) :
    ((∃ bytes, canonicalWindows protected_ acl = .ok bytes) ↔
      validateWindows (protected_.toNat.toUInt8 :: acl) = .ok ()) ∧
    (∀ bytes, canonicalWindows protected_ acl = .ok bytes → validateWindows bytes = .ok () ∧
      ∃ trimmed, bytes = protected_.toNat.toUInt8 :: trimmed ∧ Trimmed acl trimmed ∧
        canonicalWindows protected_ trimmed = .ok bytes) ∧
    (∀ acl' bytes bytes', SameEntries acl acl' → canonicalWindows protected_ acl = .ok bytes →
      canonicalWindows protected_ acl' = .ok bytes' → bytes = bytes') ∧
    canonicalWindows protected_ acl ≠ .error .panic ∧
    (∀ bytes, validateWindows bytes ≠ .error .panic ∧ restoreWindows bytes ≠ .error .panic ∧
      ∀ flag rest, bytes = flag :: rest → validateWindows bytes = .ok () →
        restoreWindows bytes = .ok (if rest = [] then none else some rest,
          if flag = 1 then 0x80000000 else 0x20000000)) := by
  refine ⟨?_, fun bytes hbytes => ?_, fun acl' bytes bytes' hsame hbytes hbytes' => ?_, ?_,
    fun bytes => ⟨?_, restoreWindows_ne_panic bytes, fun flag rest h hvalid => ?_⟩⟩
  · rw [validateWindows_eq_ok]
    obtain ⟨trimmed, hrun, haccepted, -⟩ | ⟨hrun, haccepted⟩ := canonicalWindows_cases protected_ acl
    · exact iff_of_true ⟨_, hrun⟩ haccepted
    · refine iff_of_false (fun ⟨bytes, hbytes⟩ => ?_) haccepted
      rw [hrun] at hbytes
      exact absurd hbytes (by simp [Checked.fail])
  · obtain ⟨trimmed, hrun, -, htrimmed⟩ | ⟨hrun, -⟩ := canonicalWindows_cases protected_ acl
    · obtain rfl := Except.ok.inj (hrun.symm.trans hbytes)
      exact ⟨validateWindows_eq_ok.mpr (htrimmed.accepted protected_), trimmed, rfl, htrimmed,
        htrimmed.canonicalWindows protected_⟩
    · rw [hrun] at hbytes
      exact absurd hbytes (by simp [Checked.fail])
  · obtain ⟨rfl, rfl⟩ | ⟨list, size, size', slack, slack', hsize, hsize', rfl, rfl⟩ := hsame
    · exact Except.ok.inj (hbytes.symm.trans hbytes')
    · rw [canonicalWindows_around hsize hbytes, canonicalWindows_around hsize' hbytes']
  · obtain ⟨trimmed, hrun, -⟩ | ⟨hrun, -⟩ := canonicalWindows_cases protected_ acl
    · rw [hrun]
      simp
    · rw [hrun]
      simp [Checked.fail]
  · obtain ⟨hrun, -⟩ | ⟨hrun, -⟩ := validateWindows_cases bytes
    · rw [hrun]
      simp
    · rw [hrun]
      simp [Checked.fail]
  · subst h
    exact restoreWindows_cons (validateWindows_eq_ok.mp hvalid)

end NativeAcl

end Machine

end Difz
