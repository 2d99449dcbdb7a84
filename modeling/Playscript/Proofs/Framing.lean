import Playscript.Proofs.Container

/-!
# Framing — the bytes in front of a stream

The six bytes of a header name the algorithm, and so do the first bytes of the stream behind them.
The level that a header gives plays no part when the stream is read.

* `Algorithm.Starts` — the bytes that the streams of an algorithm start with;
* `Algorithm.sniff?_eq_some_iff` — these bytes tell the algorithm, and nothing else does;
* `Container.unpack_congr` — what is unpacked depends on the algorithm and the stream alone;
* `Container.unpackText_framing` — headers of any level, no header at all, and bytes of any kind.
-/

namespace Playscript

/-! ## First bytes -/

namespace Algorithm

/-- How the streams of an algorithm start. -/
inductive Starts : Algorithm → Bytes → Prop where
  | gzip (rest : Bytes) : Starts gzip (0x1f :: 0x8b :: rest)
  -- Deflated data with a window of 32 KiB; the first two bytes are a multiple of 31.
  | zlib (flags : UInt8) (rest : Bytes) :
      (256 * 0x78 + flags.toNat) % 31 = 0 → Starts zlib (0x78 :: flags :: rest)
  | bzip2 (rest : Bytes) : Starts bzip2 (66 :: 90 :: 104 :: rest)
  | zstd (rest : Bytes) : Starts zstd (0x28 :: 0xb5 :: 0x2f :: 0xfd :: rest)

variable {a : Algorithm} {stream : Bytes}

theorem starts_of_sniff? (h : sniff? stream = some a) : Starts a stream := by
  rw [sniff?.eq_def] at h
  split at h
  · cases h
    exact .gzip _
  · cases h
    exact .bzip2 _
  · cases h
    exact .zstd _
  · split at h
    · rename_i hmultiple
      cases h
      exact .zlib _ _ hmultiple
    · cases h
  · cases h

theorem Starts.sniff?_eq (h : Starts a stream) : sniff? stream = some a := by
  cases h with
  | gzip rest => rfl
  | zlib flags rest hmultiple => exact if_pos hmultiple
  | bzip2 rest => rfl
  | zstd rest => rfl

theorem sniff?_eq_some_iff : sniff? stream = some a ↔ Starts a stream :=
  ⟨starts_of_sniff?, Starts.sniff?_eq⟩

theorem starts_compress (a : Algorithm) (level : Nat) (data : Bytes) :
    Starts a (a.compress level data) := by
  cases a with
  | gzip => exact .gzip _
  | zlib => exact .zlib _ _ (by decide)
  | bzip2 => exact .bzip2 _
  | zstd => exact .zstd _

end Algorithm

namespace Container

open Algorithm (Starts)

variable {a : Algorithm} {level : UInt8} {stream bytes bytes' : Bytes} {fault : Fault}

/-! ## Headers -/

/-- No stream starts with the mark of a container. -/
theorem readHeader_of_starts (h : Starts a stream) : readHeader stream = .ok ⟨a, none⟩ := by
  have hmark : stream.take mark.length ≠ mark := by
    cases h <;> simp [mark]
  rw [readHeader, if_neg hmark, Algorithm.sniff?_eq_some_iff.2 h]

theorem readHeader_error (h : readHeader bytes = .error fault) :
    fault.kind = .corruptContainer := by
  rw [readHeader] at h
  split at h
  · rw [readMarked.eq_def] at h
    split at h
    · split at h
      · cases h
        rfl
      · split at h
        · cases h
        · cases h
          rfl
    · cases h
      rfl
  · split at h
    · cases h
    · cases h
      rfl

/-! ## Streams -/

/-- What is unpacked depends on the algorithm and the stream alone. -/
theorem unpack_congr {header header' : Header} (h : readHeader bytes = .ok header)
    (h' : readHeader bytes' = .ok header') (halgorithm : header.algorithm = header'.algorithm)
    (hbody : body header bytes = body header' bytes') : unpack bytes = unpack bytes' := by
  rw [unpack, unpack, h, h']
  simp only [bind, Except.bind, halgorithm, hbody]

theorem unpack_headerBytes (a : Algorithm) (level level' : UInt8) (stream : Bytes) :
    unpack (headerBytes a level ++ stream) = unpack (headerBytes a level' ++ stream) :=
  unpack_congr (readHeader_headerBytes a level stream) (readHeader_headerBytes a level' stream) rfl
    rfl

theorem unpack_bare (level : UInt8) (h : Starts a stream) :
    unpack stream = unpack (headerBytes a level ++ stream) :=
  unpack_congr (readHeader_of_starts h) (readHeader_headerBytes a level stream) rfl rfl

theorem unpack_error (h : unpack bytes = .error fault) : fault.kind = .corruptContainer := by
  rw [unpack] at h
  cases hheader : readHeader bytes with
  | error e =>
      rw [hheader] at h
      cases h
      exact readHeader_error hheader
  | ok header =>
      rw [hheader] at h
      dsimp only [bind, Except.bind] at h
      split at h
      · cases h
      · cases h
        rfl

/-! ## Scripts -/

theorem unpackText_congr (h : unpack bytes = unpack bytes') :
    unpackText bytes = unpackText bytes' := by
  rw [unpackText, unpackText, h]

theorem unpackText_cases (bytes : Bytes) :
    (∃ text, unpackText bytes = .ok text) ∨
      ∃ fault, unpackText bytes = .error fault ∧ fault.kind = .corruptContainer := by
  cases hunpack : unpack bytes with
  | error fault =>
      refine .inr ⟨fault, ?_, unpack_error hunpack⟩
      rw [unpackText, hunpack]
      rfl
  | ok data =>
      rw [unpackText, hunpack]
      cases hdecode : Utf8.decode data with
      | ok text => exact .inl ⟨text, by simp only [bind, Except.bind, hdecode]; rfl⟩
      | error e => exact .inr ⟨.of .decodedNotText, by simp only [bind, Except.bind, hdecode]; rfl, rfl⟩

/-- Two headers that differ in the level, which may be any byte, frame the same script, and so does
no header where the first bytes of the stream are those of the algorithm.  Hence a container of any
packing can lose its first six bytes, whoever wrote its stream.  Bytes that hold no script are
refused as a damaged container, and as nothing else. -/
theorem unpackText_framing :
    (∀ (a : Algorithm) (level level' : UInt8) (stream : Bytes),
      unpackText (headerBytes a level ++ stream) = unpackText (headerBytes a level' ++ stream)) ∧
    (∀ (a : Algorithm) (level : UInt8) (stream : Bytes), Algorithm.sniff? stream = some a →
      unpackText stream = unpackText (headerBytes a level ++ stream)) ∧
    (∀ (p : Packing) (stream : Bytes), Starts p.algorithm stream →
      let blob := headerBytes p.algorithm (UInt8.ofNat p.level) ++ stream
      unpackText (blob.drop 6) = unpackText blob) ∧
    (∀ (p : Packing) (text : String), unpackText ((packText p text).drop 6) = .ok text) ∧
    ∀ bytes, (∃ text, unpackText bytes = .ok text) ∨
      ∃ fault, unpackText bytes = .error fault ∧ fault.kind = .corruptContainer := by
  have hbare (p : Packing) (stream : Bytes) (hstarts : Starts p.algorithm stream) :
      unpackText stream =
        unpackText (headerBytes p.algorithm (UInt8.ofNat p.level) ++ stream) :=
    unpackText_congr (unpack_bare _ hstarts)
  refine ⟨fun a level level' stream => ?_, fun a level stream hsniff => ?_, hbare, fun p text => ?_,
    unpackText_cases⟩
  · exact unpackText_congr (unpack_headerBytes a level level' stream)
  · exact unpackText_congr (unpack_bare level (Algorithm.sniff?_eq_some_iff.1 hsniff))
  · -- A stream that was written here starts like all of its kind.
    have hcarries : Carries p text (packText p text) :=
      carries_of_decompress (Algorithm.decompress?_compress p _)
    calc
      unpackText ((packText p text).drop 6)
          = unpackText (packText p text) := hbare p _ (Algorithm.starts_compress _ _ _)
      _ = .ok text := hcarries.text

end Container
end Playscript
