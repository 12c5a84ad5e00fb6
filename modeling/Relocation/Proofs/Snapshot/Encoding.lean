import Relocation.Proofs.Snapshot.Capture
import Relocation.Proofs.Text.Utf8
import Relocation.Proofs.Timestamp

/-!
# Stored snapshots

A snapshot is read back from its bytes, whatever follows them. What is read from some bytes is read
from more bytes too, so a file that ends early is never taken for a snapshot.
-/

namespace Relocation

open Text (Bytes)

namespace Binary

theorem bind_eq {get : Reader α} {next : α → Reader β} {bs rest : Bytes} {a : α}
    (read : get bs = some (a, rest)) : (get >>= next) bs = next a rest := by
  change (get bs).bind _ = _
  rw [read]
  rfl

/-- What is read from some bytes is read from more bytes, and the additional ones are left. -/
def Steady (get : Reader α) : Prop :=
  ∀ bs a rest more, get bs = some (a, rest) → get (bs ++ more) = some (a, rest ++ more)

theorem Steady.pure (a : α) : Steady (pure a) := by
  intro bs b rest more read
  cases read
  rfl

theorem Steady.failure : Steady (failure : Reader α) := by
  intro bs a rest more read
  cases read

theorem Steady.lift (o : Option α) : Steady (StateT.lift o) := by
  intro bs a rest more read
  cases o with
  | none => cases read
  | some b => cases read; rfl

theorem Steady.bind {get : Reader α} {next : α → Reader β} (first : Steady get)
    (second : ∀ a, Steady (next a)) : Steady (get >>= next) := by
  intro bs b rest more read
  cases got : get bs with
  | none =>
    change (get bs).bind _ = _ at read
    rw [got] at read
    cases read
  | some r =>
    rw [bind_eq got] at read
    rw [bind_eq (first bs r.1 r.2 more got)]
    exact second r.1 r.2 b rest more read

/-! ### Numbers, bytes and texts -/

theorem getByte_steady : Steady getByte := by
  intro bs a rest more read
  cases bs with
  | nil => cases read
  | cons b bs => cases read; rfl

theorem getNat_steady (width : Nat) : Steady (getNat width) := by
  induction width with
  | zero => exact .pure 0
  | succ width ih => exact getByte_steady.bind fun _ => ih.bind fun _ => .pure _

theorem getNat_putNat {width n : Nat} (small : n < Nat.pow 256 width) (rest : Bytes) :
    getNat width (putNat width n ++ rest) = some (n, rest) := by
  induction width generalizing n with
  | zero =>
    have zero : n = 0 := Nat.lt_one_iff.mp small
    rw [zero]
    rfl
  | succ width ih =>
    have high : n / 256 < Nat.pow 256 width := Nat.div_lt_of_lt_mul (by rw [Nat.mul_comm]; exact small)
    have first : getByte (putNat (width + 1) n ++ rest) = some (UInt8.ofNat n,
      putNat width (n / 256) ++ rest) := rfl
    rw [getNat, bind_eq first, bind_eq (ih high)]
    exact congrArg (fun m => some (m, rest)) (Nat.mod_add_div n 256)

theorem putNat_length (width n : Nat) : (putNat width n).length = width := by
  induction width generalizing n with
  | zero => rfl
  | succ width ih => rw [putNat, List.length_cons, ih]

def IsShort (items : List α) : Prop := items.length < Nat.pow 256 8

instance (items : List α) : Decidable (IsShort items) := inferInstanceAs (Decidable (_ < _))

theorem getLength_putLength {items : List α} (short : IsShort items) (rest : Bytes) :
    getLength (putLength items.length ++ rest) = some (items.length, rest) := getNat_putNat short rest

theorem take_steady (n : Nat) : Steady (take n) := by
  intro bs a rest more read
  unfold take at read ⊢
  split at read
  · rename_i enough
    cases read
    rw [if_pos (by rw [List.length_append]; omega), List.take_append_of_le_length enough,
      List.drop_append_of_le_length enough]
  · cases read

theorem getBytes_steady : Steady getBytes := (getNat_steady 8).bind take_steady

theorem getBytes_putBytes {bs : Bytes} (short : IsShort bs) (rest : Bytes) :
    getBytes (putBytes bs ++ rest) = some (bs, rest) := by
  rw [putBytes, List.append_assoc, getBytes, bind_eq (getLength_putLength short _)]
  simp [take]

theorem getText_steady : Steady getText := getBytes_steady.bind fun bytes => .lift (Text.decode? bytes)

theorem getText_putText {s : String} (short : IsShort (Text.encode s)) (rest : Bytes) :
    getText (putText s ++ rest) = some (s, rest) := by
  rw [putText, getText, bind_eq (getBytes_putBytes short rest), Text.decode?, Text.decode_encode]
  rfl

theorem getPath_steady : Steady getPath := getText_steady.bind fun _ => .pure _

theorem getPath_putPath {p : Path} (short : IsShort (Text.encode p.text)) (rest : Bytes) :
    getPath (putPath p ++ rest) = some (p, rest) := by
  rw [putPath, getPath, bind_eq (getText_putText short rest)]
  rfl

theorem putPath_length (p : Path) : 1 ≤ (putPath p).length := by
  rw [putPath, putText, putBytes, putLength, List.length_append, putNat_length]
  omega

/-! ### Lists -/

section
variable {get : Reader α} (steady : Steady get)
include steady

theorem getItems_steady (n : Nat) : Steady (getItems get n) := by
  induction n with
  | zero => exact .pure []
  | succ n ih => exact steady.bind fun _ => ih.bind fun _ => .pure _

theorem getAtMost_steady (n : Nat) : Steady (getAtMost get n) := by
  intro bs as rest more read
  unfold getAtMost at read ⊢
  split at read
  · rename_i enough
    rw [if_pos (by rw [List.length_append]; omega)]
    exact getItems_steady steady n bs as rest more read
  · cases read

theorem getList_steady : Steady (getList get) := (getNat_steady 8).bind (getAtMost_steady steady)

end

theorem length_le_flatMap {put : α → Bytes} {items : List α}
    (filled : ∀ a ∈ items, 1 ≤ (put a).length) : items.length ≤ (items.flatMap put).length := by
  induction items with
  | nil => simp
  | cons a others ih =>
    have first := filled a List.mem_cons_self
    have rest := ih fun b member => filled b (List.mem_cons_of_mem _ member)
    rw [List.flatMap_cons, List.length_append, List.length_cons]
    omega

section
variable {get : Reader α} {put : α → Bytes} {items : List α}
variable (back : ∀ a ∈ items, ∀ rest, get (put a ++ rest) = some (a, rest))
include back

theorem getItems_put (rest : Bytes) :
    getItems get items.length (items.flatMap put ++ rest) = some (items, rest) := by
  induction items with
  | nil => rfl
  | cons a others ih =>
    have first := back a List.mem_cons_self (others.flatMap put ++ rest)
    have second := ih fun b member => back b (List.mem_cons_of_mem _ member)
    rw [List.length_cons, getItems, List.flatMap_cons, List.append_assoc, bind_eq first,
      bind_eq second]
    rfl

theorem getList_putList (short : IsShort items) (filled : ∀ a ∈ items, 1 ≤ (put a).length)
    (rest : Bytes) : getList get (putList put items ++ rest) = some (items, rest) := by
  have enough := length_le_flatMap filled
  rw [putList, List.append_assoc, getList, bind_eq (getLength_putLength short _), getAtMost,
    if_pos (by rw [List.length_append]; omega)]
  exact getItems_put back rest

end

end Binary

open Binary Disk

theorem Disk.exists?_of_read {d : Disk} {path : Path} {bytes : Bytes}
    (read : d.read path = .ok bytes) : d.exists? path = true := by
  unfold Disk.read at read
  unfold Disk.exists?
  cases found : d.locate true path with
  | error e => rw [found] at read; cases read
  | ok place =>
    rw [found] at read
    cases place with
    | free loc => cases read
    | taken loc n => rfl

namespace Snapshot

/-- The widths of the format leave room for the snapshot. -/
structure Storable (s : Snapshot) : Prop where
  version : s.version < Nat.pow 256 4
  id : s.id.length = 16
  root : IsShort (Text.encode s.root.text)
  files : IsShort s.files ∧ ∀ f ∈ s.files, IsShort (Text.encode f.path.text) ∧ IsShort f.content
  moves : IsShort s.moves ∧
    ∀ m ∈ s.moves, IsShort (Text.encode m.source.text) ∧ IsShort (Text.encode m.target.text)
  newDirs : IsShort s.newDirs ∧ ∀ p ∈ s.newDirs, IsShort (Text.encode p.text)

theorem getFile_steady :
    Steady getFile := getPath_steady.bind fun _ => getBytes_steady.bind fun _ => .pure _

theorem getMove_steady :
    Steady getMove := getPath_steady.bind fun _ => getPath_steady.bind fun _ => .pure _

theorem get_steady : Steady get := by
  refine (getNat_steady 4).bind fun version => getBytes_steady.bind fun id => getText_steady.bind
      fun created =>
    getPath_steady.bind fun root => (getList_steady getFile_steady).bind fun files =>
    (getList_steady getMove_steady).bind fun moves => (getList_steady getPath_steady).bind
        fun newDirs =>
    (Steady.lift (Timestamp.parse? created)).bind fun createdAt => ?_
  split
  · exact .pure _
  · exact .failure

variable {s : Snapshot} (storable : s.Storable)
include storable

theorem getFile_putFile {f : SnapshotFile} (member : f ∈ s.files) (rest : Bytes) :
    getFile (putFile f ++ rest) = some (f, rest) := by
  obtain ⟨path, content⟩ := storable.files.2 f member
  rw [putFile, List.append_assoc, getFile, bind_eq (getPath_putPath path _), bind_eq
    (getBytes_putBytes content rest)]
  rfl

theorem getMove_putMove {m : Move} (member : m ∈ s.moves) (rest : Bytes) :
    getMove (putMove m ++ rest) = some (m, rest) := by
  obtain ⟨source, target⟩ := storable.moves.2 m member
  rw [putMove, List.append_assoc, getMove, bind_eq (getPath_putPath source _), bind_eq
    (getPath_putPath target rest)]
  rfl

theorem getFiles_putFiles (rest : Bytes) :
    getList getFile (putList putFile s.files ++ rest) = some (s.files, rest) := by
  refine getList_putList (fun f member => getFile_putFile storable member) storable.files.1
    (fun f _ => ?_) rest
  rw [putFile, List.length_append]
  exact Nat.le_add_right_of_le (putPath_length f.path)

theorem getMoves_putMoves (rest : Bytes) :
    getList getMove (putList putMove s.moves ++ rest) = some (s.moves, rest) := by
  refine getList_putList (fun m member => getMove_putMove storable member) storable.moves.1
    (fun m _ => ?_) rest
  rw [putMove, List.length_append]
  exact Nat.le_add_right_of_le (putPath_length m.source)

omit storable in
theorem createdAt_short : IsShort (Text.encode s.createdAt.toText) := by
  have chars := s.createdAt.toText_length
  have bytes := Text.encode_length_le s.createdAt.toText
  exact Nat.lt_of_le_of_lt bytes (Nat.lt_of_le_of_lt (Nat.mul_le_mul_left 4 chars) (by decide))

theorem get_encode (rest : Bytes) : get (s.encode ++ rest) = some (s, rest) := by
  have id : IsShort s.id := by
    rw [IsShort, storable.id]
    decide
  have newDirs :=
    fun rest => getList_putList (fun p member => getPath_putPath (storable.newDirs.2 p member))
    storable.newDirs.1 (fun p _ => putPath_length p) rest
  have created := s.createdAt.parse?_toText
  simp only [encode, List.append_assoc]
  rw [get, bind_eq (getNat_putNat storable.version _), bind_eq (getBytes_putBytes id _),
    bind_eq (getText_putText createdAt_short _), bind_eq (getPath_putPath storable.root _),
    bind_eq (getFiles_putFiles storable _), bind_eq (getMoves_putMoves storable _),
    bind_eq (newDirs _), created, bind_eq rfl, if_pos storable.id]
  rfl

theorem decode?_encode (more : Bytes) : decode? (s.encode ++ more) = some s := by
  rw [decode?, get_encode storable]
  rfl

theorem decode?_short {bytes : Bytes} (within : bytes <+: s.encode) (strict : bytes ≠ s.encode) :
    decode? bytes = none := by
  obtain ⟨more, whole⟩ := within
  cases read : get bytes with
  | none => rw [decode?, read]; rfl
  | some r =>
    have long := get_steady bytes r.1 r.2 more read
    have exact' := get_encode storable []
    rw [whole] at long
    rw [List.append_nil, long] at exact'
    have rest : r.2 ++ more = [] := (Prod.mk.inj (Option.some.inj exact')).2
    rw [(List.append_eq_nil_iff.mp rest).2, List.append_nil] at whole
    exact (strict whole).elim

theorem load_encode {d : Disk} {path : Path} {more : Bytes}
    (read : d.read path = .ok (s.encode ++ more)) : load d path =
      if s.version = currentVersion then .ok s
      else .error (.corruption [] (some path)
        s!"snapshot format {s.version} is not supported (expected {currentVersion})") := by
  unfold load
  rw [exists?_of_read read, read]
  simp only [decode?_encode storable]
  rfl

theorem load_short {d : Disk} {path : Path} {bytes : Bytes} (within : bytes <+: s.encode)
    (strict : bytes ≠ s.encode) (read : d.read path = .ok bytes) : load d path = .error .encoding := by
  unfold load
  rw [exists?_of_read read, read]
  simp only [decode?_short storable within strict]
  rfl

omit storable

/-- Whatever follows a stored snapshot, it is loaded as it was if it has the current version, and
refused if not; nothing is loaded from a file that ends early. Storing writes just these bytes, and
succeeds unless a file stands in the way of the directory or a directory has one of the two names. -/
theorem load_stored (storable : s.Storable) :
    (∀ (d : Disk) path more, d.read path = .ok (s.encode ++ more) → load d path =
      if s.version = currentVersion then .ok s
      else .error (.corruption [] (some path)
        s!"snapshot format {s.version} is not supported (expected {currentVersion})")) ∧
    (∀ (d : Disk) path bytes, bytes <+: s.encode → bytes ≠ s.encode → d.read path = .ok bytes →
      load d path = .error .encoding) ∧
    ∀ (d : Disk) loc, d.IsTree → (∀ name ∈ loc, Path.IsName name) →
      (∀ path, (s.persist (pathOf loc) d).1 = .ok path →
        (s.persist (pathOf loc) d).2.read path = .ok s.encode ∧
        (s.version = currentVersion → load (s.persist (pathOf loc) d).2 path = .ok s)) ∧
      (¬ d.IsBlocked loc → d.at? (loc ++ [s.fileName]) ≠ some .dir →
        d.at? (loc ++ [s.fileName ++ ".tmp"]) ≠ some .dir →
        (s.persist (pathOf loc) d).1 = .ok (pathOf (loc ++ [s.fileName]))) := by
  refine ⟨fun d path more read => load_encode storable read,
    fun d path bytes within strict read => load_short storable within strict read,
    fun d loc tree valid => ⟨fun path stored => ?_, persist_succeeds s tree valid⟩⟩
  have inside : ∀ name ∈ ([] : Location) ++ loc, Path.IsName name := valid
  obtain ⟨after, _, files⟩ := persist_spec s tree inside rfl
  obtain ⟨place, rfl, _, names, file⟩ := files path stored
  have read := (read_pathOf after names).mpr file
  refine ⟨read, fun current => ?_⟩
  rw [← List.append_nil s.encode] at read
  exact (load_encode storable read).trans (if_pos current)

/-- A snapshot with an empty file, one that is no text, a leap second and a year of five digits. -/
def odd : Snapshot :=
  { version := currentVersion, id := List.replicate 16 7
    createdAt := ⟨⟨-20024, 12, 31⟩, 23, 59, 60, 120000, by decide⟩
    root := pathOf ["p"], files := [⟨⟨"a.ts"⟩, []⟩, ⟨⟨"é.ts"⟩, [0, 255]⟩]
    moves := [⟨⟨"a.ts"⟩, ⟨"lib/a.ts"⟩⟩], newDirs := [⟨"lib"⟩] }

theorem odd_storable : odd.Storable where
  version := by decide
  id := rfl
  root := by decide
  files := by decide
  moves := by decide
  newDirs := by decide

theorem load_stored_odd :
    odd.Storable ∧ (odd.persist (pathOf ["store"]) {}).1 = .ok (pathOf ["store", odd.fileName]) ∧
      load (odd.persist (pathOf ["store"]) {}).2 (pathOf ["store", odd.fileName]) = .ok odd ∧
      load { nodes := .single ["half"] (.file (odd.encode.take 90)) } (pathOf ["half"]) =
        .error .encoding := by
  obtain ⟨_, short, stored⟩ := load_stored odd_storable
  obtain ⟨loads, succeeds⟩ := stored {} ["store"] (by decide) (by decide)
  have done := succeeds (by rintro ⟨above, c, _, file⟩; cases above <;> cases file) (by decide)
    (by decide)
  refine ⟨odd_storable, done, (loads _ done).2 rfl, ?_⟩
  exact short _ _ (odd.encode.take 90) (List.take_prefix _ _) (by decide +kernel) (by decide +kernel)

end Snapshot

end Relocation
