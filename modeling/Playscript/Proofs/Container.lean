import Playscript.Container
import Playscript.Proofs.Blocks
import Playscript.Proofs.Stored
import Playscript.Proofs.Utf8

/-!
# Container — a script comes back out of its container

The writer takes the algorithm and the level from a packing, and the reader takes them from the
first six bytes.

* `Algorithm.decompress?_compress` — each algorithm undoes its own work at each of its levels;
* `Container.Carries` — what a container of a text has to say;
* `Container.script_round_trip` — containers of texts, for every algorithm and level.
-/

namespace Playscript

theorem Algorithm.decompress?_compress (p : Packing) (data : Bytes) :
    p.algorithm.decompress? (p.algorithm.compress p.level data) = some data := by
  rcases p with ⟨algorithm, level, hlegal⟩
  cases algorithm with
  | gzip => exact Gzip.decompress_compress data
  | zlib => exact Zlib.decompress_compress data
  | bzip2 => exact Bzip2.decompress_compress hlegal.1 hlegal.2 data
  | zstd => exact Zstd.decompress_compress data

namespace Container

/-- What a container of a text has to say: its first six bytes, the header that is read from them,
and the text. -/
structure Carries (p : Packing) (text : String) (blob : Bytes) : Prop where
  first : blob.take 6 = [81, 68, 90, 1, UInt8.ofNat p.algorithm.id, UInt8.ofNat p.level]
  header : readHeader blob = .ok ⟨p.algorithm, some p.level⟩
  text : unpackText blob = .ok text

theorem level_lt (p : Packing) : p.level < 256 := by
  have hhighest : p.algorithm.highest < 256 := by
    cases p.algorithm <;> decide
  exact Nat.lt_of_le_of_lt p.legal.2 hhighest

/-- The level is handed on as it is, whether or not the algorithm has it. -/
theorem readHeader_headerBytes (a : Algorithm) (level : UInt8) (stream : Bytes) :
    readHeader (headerBytes a level ++ stream) = .ok ⟨a, some level.toNat⟩ := by
  have hid : Algorithm.ofId? (a.id % 256) = some a := by
    cases a <;> rfl
  simp [readHeader, headerBytes, mark, readMarked, version, hid]

theorem readHeader_packing (p : Packing) (stream : Bytes) :
    readHeader (headerBytes p.algorithm (UInt8.ofNat p.level) ++ stream) =
      .ok ⟨p.algorithm, some p.level⟩ := by
  rw [readHeader_headerBytes, UInt8.toNat_ofNat', Nat.mod_eq_of_lt (level_lt p)]

theorem unpack_of_decompress {p : Packing} {stream data : Bytes}
    (h : p.algorithm.decompress? stream = some data) :
    unpack (headerBytes p.algorithm (UInt8.ofNat p.level) ++ stream) = .ok data := by
  have hbody : body ⟨p.algorithm, some p.level⟩
      (headerBytes p.algorithm (UInt8.ofNat p.level) ++ stream) = stream := rfl
  rw [unpack, readHeader_packing]
  simp only [bind, Except.bind, hbody, h]
  rfl

/-- A stream that is decompressed to a text makes a container of that text, whoever wrote it. -/
theorem carries_of_decompress {p : Packing} {text : String} {stream : Bytes}
    (h : p.algorithm.decompress? stream = some (Utf8.encode text)) :
    Carries p text (headerBytes p.algorithm (UInt8.ofNat p.level) ++ stream) where
  first := rfl
  header := readHeader_packing p stream
  text := by
    rw [unpackText, unpack_of_decompress h]
    simp only [bind, Except.bind, Utf8.decode_encode]
    rfl

theorem carries_packText (p : Packing) (text : String) : Carries p text (packText p text) :=
  carries_of_decompress (Algorithm.decompress?_compress p _)

theorem packScript_eq_ok (p : Packing) (text : String) :
    packScript p (Utf8.encode text) = .ok (packText p text) := by
  rw [packScript, Utf8.decode_encode]

/-- Bytes that are no text are refused for their encoding. -/
theorem packScript_refuses {p : Packing} {bytes : Bytes} (h : ∀ text, bytes ≠ Utf8.encode text) :
    ∃ fault, packScript p bytes = .error fault ∧ fault.kind = .encoding := by
  rw [packScript]
  cases hdecode : Utf8.decode bytes with
  | ok text =>
      exact absurd (Utf8.decode_eq_ok_iff.1 hdecode) (h text)
  | error e =>
      exact ⟨_, rfl, rfl⟩

/-- A level is accepted if it is a level of the algorithm, and refused as an argument otherwise.
What is packed at an accepted level is a container of its text, and so is every stream, behind the
same six bytes, that the algorithm decompresses to that text.  Bytes are packed like the text that
they encode, and refused for their encoding if there is none. -/
theorem script_round_trip (algorithm : Algorithm) (level : Nat) :
    match Packing.ofLevel algorithm level with
    | .error fault =>
      ¬ (algorithm.lowest ≤ level ∧ level ≤ algorithm.highest) ∧ fault.kind = .invalidArgument
    | .ok p =>
      (algorithm.lowest ≤ level ∧ level ≤ algorithm.highest) ∧
      p.algorithm = algorithm ∧ p.level = level ∧
      (∀ text, Carries p text (packText p text) ∧
        ∀ stream, algorithm.decompress? stream = some (Utf8.encode text) →
          Carries p text (headerBytes algorithm (UInt8.ofNat level) ++ stream)) ∧
      ∀ bytes,
        (∃ text, bytes = Utf8.encode text ∧ packScript p bytes = .ok (packText p text)) ∨
        (∀ text, bytes ≠ Utf8.encode text) ∧
          ∃ fault, packScript p bytes = .error fault ∧ fault.kind = .encoding := by
  by_cases hlegal : algorithm.lowest ≤ level ∧ level ≤ algorithm.highest
  · have hok : Packing.ofLevel algorithm level = .ok ⟨algorithm, level, hlegal⟩ := dif_pos hlegal
    rw [hok]
    refine ⟨hlegal, rfl, rfl, fun text => ⟨?_, fun stream hstream => ?_⟩, fun bytes => ?_⟩
    · exact carries_packText _ text
    · exact carries_of_decompress (p := ⟨algorithm, level, hlegal⟩) hstream
    · by_cases htext : ∃ text, bytes = Utf8.encode text
      · rcases htext with ⟨text, rfl⟩
        exact .inl ⟨text, rfl, packScript_eq_ok _ text⟩
      · have hnone : ∀ text, bytes ≠ Utf8.encode text := fun text heq => htext ⟨text, heq⟩
        exact .inr ⟨hnone, packScript_refuses hnone⟩
  · have herror : Packing.ofLevel algorithm level = .error _ := dif_neg hlegal
    rw [herror]
    exact ⟨hlegal, rfl⟩

end Container
end Playscript
