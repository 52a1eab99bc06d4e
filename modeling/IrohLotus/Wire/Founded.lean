/-
A cluster as `Core::create_in_state_dir` founds it, and the envelopes its founder signs to admit a node,
to say where it is reachable and to ask for more signatures, with the digests blake3 gives them and the
signatures ed25519 gives the keys over them. The `Externals` here knows these and nothing else.
-/
import IrohLotus.Wire.Addr

namespace IrohLotus.Wire.Founded

open Std

/-! ## Keys and endpoints -/

/-- The signing key of the founder. -/
def founderKey : PublicKey := .ed25519 ⟨0x8a88e3dd7409f195fd52db2d3cba5d72ca6709bf1d94121bf3748801b40f6f5c⟩

def founderId : KeyId := ⟨0xb81838d42ad02649f4602c7d42347ec1a2f6da3bfd4813ab9085afe0688c93c2⟩

def founderName : String := "b81838d42ad02649f4602c7d42347ec1a2f6da3bfd4813ab9085afe0688c93c2"

/-- The signing key of a node that joins. -/
def joinerKey : PublicKey := .ed25519 ⟨0xed4928c628d1c2c6eae90338905995612959273a5c63f93636c14614ac8737d1⟩

def joinerId : KeyId := ⟨0xd455a483390c8f6cbcdb916116abefbc72bd1f2143cbacefa6f77961f44c2ae5⟩

def joinerName : String := "d455a483390c8f6cbcdb916116abefbc72bd1f2143cbacefa6f77961f44c2ae5"

/-- The id of the founder's endpoint, and its text. -/
def founderEndpoint : BitVec 256 := 0x8139770ea87d175f56a35466c34c7ecccb8d8a91b4ee37a25df60f5b8fc9b394

def founderZ32 : String := "orhzqdiexwmi6iidktucgud63ufa5nwtsuzdxe176a8izd6jsqky"

/-- The id of the joiner's endpoint, and its text. -/
def joinerEndpoint : BitVec 256 := 0xca93ac1705187071d67b83c7ff0efe8108e8ec4530575d7726879333dbdabe7c

def joinerZ32 : String := "3kj4afafdba8diu5oxd96dz6orrqt5nfgbmi473go6ju8s64z36y"

/-! ## Envelopes -/

/-- The listing of an endpoint with no transport. -/
def unreachable (z32 : String) : Value :=
  .map [("iroh", .map [("addrs", .array []), ("endpoint_id", .string z32)])]

/-- An envelope with the founder's signature on it. -/
def signed (envelope : Envelope) (signature : BitVec 512) : Envelope :=
  { envelope with signatures := envelope.signatures.insert founderId (.ed25519 ⟨signature⟩) }

/-- One entry of a reserved namespace set. -/
def entry (prev : EnvelopeDigest) (key : NamespaceKey) (id : String) (value : Value) : Envelope :=
  Envelope.new (.setNamespaceKey ⟨prev, key, ⟨[.key id], List.cons_ne_nil _ _⟩, some value⟩)

theorem trustedKeys_ne : "_lotus_trusted_keys" ≠ "" := by decide

theorem clusterNodes_ne : "_lotus_nodes" ≠ "" := by decide

theorem minSignatures_ne : "_lotus_min_envelope_signatures" ≠ "" := by decide

def trustedKeys : NamespaceKey := ⟨"_lotus_trusted_keys", trustedKeys_ne⟩

def clusterNodes : NamespaceKey := ⟨"_lotus_nodes", clusterNodes_ne⟩

def foundedDigest : EnvelopeDigest := ⟨0x9fcbde7fa1d85521ed3881eca5be9fc58ddc883837b2113cce57280122168b79⟩

/-- The state a founder starts from: its own key, its own listing, and one signature required. -/
def foundedState : ExtTreeMap NamespaceKey Namespace :=
  ((∅ : ExtTreeMap NamespaceKey Namespace).insert trustedKeys ⟨.map [(founderName, .key ⟨founderKey, 2, ∅⟩)]⟩
    |>.insert clusterNodes ⟨.map [(founderName, unreachable founderZ32)]⟩
    |>.insert ⟨"_lotus_min_envelope_signatures", minSignatures_ne⟩ ⟨.int 1⟩)

/-- The start of the chain. -/
def founding : Envelope := Envelope.new (.init ⟨⟨foundedState⟩⟩)

def foundingSignature : BitVec 512 := 0x3207e800727d2303655abfdd7152cb4317432c47a2c3f5cf0066d6fda1d0d2d66ed0a54e3c74fc1c072f432d935202acbd4265cdb164eb254eaed4f545f0600d

def founded : Envelope := signed founding foundingSignature

def trustedDigest : EnvelopeDigest := ⟨0x4727e05f69acda12c7d0b397d649432f45efee4d8cc0f614dd287200cef3053b⟩

def trustedSignature : BitVec 512 := 0xbe03241c30e2af50d79c7059dcb8116d230c417977e0b98587dba88d7c248a619ba169d207def91a206df8679ed758931d9ecd3608080eb2694b0dbb382bd90d

/-- The joiner's key trusted. -/
def trusted : Envelope := signed (entry foundedDigest trustedKeys joinerName (.key ⟨joinerKey, 1, ∅⟩)) trustedSignature

/-- What the joiner's key gives over that message, which only the founder may send. -/
def usurpedSignature : BitVec 512 := 0xfffdb96535e3023cfbd4dcece8d13e9ada1397259d3e7cb2f13c1d8902967699ffee241f01fb56e3c2c49343000a678e97dec397fb58561a14c4e20412dce50e

def usurpedDigest : EnvelopeDigest := ⟨0x0f7bbb9a71e6bcb827a6f353bc5392e761340a1dc413ea9d6f85c6b16700a719⟩

/-- That message with the joiner's signature on it alone. -/
def usurping : Envelope :=
  let envelope := entry foundedDigest trustedKeys joinerName (.key ⟨joinerKey, 1, ∅⟩)
  { envelope with signatures := envelope.signatures.insert joinerId (.ed25519 ⟨usurpedSignature⟩) }

def joinedDigest : EnvelopeDigest := ⟨0x31fb4980e7eca4fab226226d4d9ec504a94eb2a1f2d8d7934480e783cc557ca2⟩

def joinedSignature : BitVec 512 := 0x43c2c4cf00b39bf541bf52b84008bed0f4a7de5c79b785ad9e38d339b62f89da006d89eb73686c7cfce01e0a9452d37fcf169e52d84f44fce9ec6cba85166e00

/-- And its endpoint listed. -/
def joined : Envelope := signed (entry trustedDigest clusterNodes joinerName (unreachable joinerZ32)) joinedSignature

def claimedDigest : EnvelopeDigest := ⟨0x215a0cebbbbc22b701b699e29c7dadc70ece00c15e2ef36968d5f21f39528e52⟩

def claimedSignature : BitVec 512 := 0xa35b363cfccea29ed23d5b0ad4f022ed7ad466a714839f8f5984d9d5ea1529d2ba220071e4c7736e12062371057d6aa8275615d3aac354f844aaf080cb7b030f

/-- The founder's own key, trusted again at the weight of an invite. -/
def claimed : Envelope := signed (entry foundedDigest trustedKeys founderName (.key ⟨founderKey, 1, ∅⟩)) claimedSignature

def capturedDigest : EnvelopeDigest := ⟨0x551a4683a9fbd7e0d964da8ede3fcda70b54ae54ce1a5f68992792b2b4a63d89⟩

def capturedSignature : BitVec 512 := 0x50c4eef1e16527b70a0ccfa1c2d9e80d25086fa77eb2624c6344392488e5ba6cc408b93788fdd17d357459a37c0bdb5348d89edff1313765b8fce8ef53915007

/-- And the joiner's endpoint listed under it. -/
def captured : Envelope := signed (entry claimedDigest clusterNodes founderName (unreachable joinerZ32)) capturedSignature

def delistedDigest : EnvelopeDigest := ⟨0xdae258acfd90c7bcea4d5f279e83d047c2958065ff6b1295a9cdd82b5fdb0d20⟩

def delistedSignature : BitVec 512 := 0x42c1adf1090a64ba582c89fde6efe2c938f78b59859b5ad92531508a28873c3832ea44a644609658a22a00804d6d6140d23d1358f7c4e23b47dc288d22707d03

/-- The listings deleted. -/
def delisting : Envelope := Envelope.new (.deleteNamespace ⟨foundedDigest, clusterNodes⟩)

def delisted : Envelope := signed delisting delistedSignature

def strandedDigest : EnvelopeDigest := ⟨0x6b2d0e4c5190fc35e91cfaa84f225376b5a4e29257123eabd0811cae8407eab5⟩

def strandedSignature : BitVec 512 := 0x3892c1c322b51070be708569f6d3a86baa69e044678c9b1354aefc95f530d1b526360c6481104ff8e682861bc50915a479770ccac7131a4e141e183c73919409

/-- The joiner's key trusted where nothing is listed. -/
def stranded : Envelope := signed (entry delistedDigest trustedKeys joinerName (.key ⟨joinerKey, 1, ∅⟩)) strandedSignature

def unlistedDigest : EnvelopeDigest := ⟨0x7589a25537d513f5fb75a21d847956e74fc61c685c6a1200e5385574da4e54dd⟩

def unlistedSignature : BitVec 512 := 0x81f2be487e96c5fd578d53879459df82e5a31d8b427f7faf33dffd1f98650c9c2d3a8e36dfccc101d4ac070c43805f6de1dae88a7a83cf47cf75e8ac3eacc401

/-- And its endpoint listed there. -/
def unlisted : Envelope := signed (entry strandedDigest clusterNodes joinerName (unreachable joinerZ32)) unlistedSignature

/-- A transport at a socket address. -/
def transport (socket : String) : Value := .map [("addr", .string socket), ("type", .string "ip")]

/-- The path to the transports of the founder's listing. -/
def transportsPath : SubkeyPath := ⟨[.key founderName, .key "iroh", .key "addrs"], List.cons_ne_nil _ _⟩

/-- The transports of the founder's listing written whole, to the one at a new socket. -/
def moving (prev : EnvelopeDigest) : Envelope :=
  Envelope.new (.setNamespaceKey ⟨prev, clusterNodes, transportsPath, some (.array [transport "192.0.2.1:4433"])⟩)

/-- That transport appended to them. -/
def appending (prev : EnvelopeDigest) : Envelope :=
  Envelope.new (.amendNamespaceKey ⟨prev, clusterNodes, some transportsPath, .appendEntry (transport "192.0.2.1:4433")⟩)

def movedDigest : EnvelopeDigest := ⟨0x0b7f5748292a96fa6a0b25723acfc9b97e3f1c9d31ac14c1240da898447b6044⟩

def movedSignature : BitVec 512 := 0x6c6c242fd6be7fcda4181170fa3fb95c30706a5668a3f65742dbfa6f490d7a85af4e4dae92ff923f5a4ab68dd2579161d7a243ac82828f7cabeda00c68f75503

/-- The founder's transports written whole. -/
def moved : Envelope := signed (moving foundedDigest) movedSignature

def appendedDigest : EnvelopeDigest := ⟨0x99cf46b6ef9efb6a1d1eba818b88613b8e92a5de3d7ad77bfeec7818d40f86f9⟩

def appendedSignature : BitVec 512 := 0x40b10f8bf5ad5b87acab8c56c05c4eccab1b6456411501aff19348358d6c68e16d5766fb18ae5d724306f05876119044743fa1a55fca4b6eeed0bceef4f45808

/-- Or the one it lacks appended. -/
def appended : Envelope := signed (appending foundedDigest) appendedSignature

/-- The number of signatures asked of an envelope, set. -/
def asking (prev : EnvelopeDigest) (count : Int64) : Envelope :=
  Envelope.new (.setNamespace ⟨prev, ⟨"_lotus_min_envelope_signatures", minSignatures_ne⟩, ⟨.int count⟩⟩)

def raisedDigest : EnvelopeDigest := ⟨0x65a957cd868ed747bfe6a267f379369697ec47278234a11396ba7c72c2b7bce5⟩

def raisedSignature : BitVec 512 := 0x8587215ef8d77ce94144d9aaedaeb3d404ee5061cb813d938d9b29000d567addad746043012141ec7b036113c34c40472c87b108c1cd8c1f6eab172317d92309

/-- Two signatures asked for once the joiner's key is trusted. -/
def raised : Envelope := signed (asking trustedDigest 2) raisedSignature

def loweredDigest : EnvelopeDigest := ⟨0x6f3132dfb67de88ff70b9b6179eb85efaeddb5480b69c1c9effb1e6271a852eb⟩

def loweredSignature : BitVec 512 := 0xd4f3fcc0c0750575bdd678669476cc00d01c01d758bcada6424b6ae8c9f0e51c151a913d483c241aafaef0a54e35a076d40415dcffb1ef32bcd27f43e81e7001

def loweredJoinerSignature : BitVec 512 := 0xfd78d3e17e9d6dc3e4902c426adfc7454f50b90a76af01b9280ffa7f3c63af306fb6859471cb4d6ad6a981ec8cbc3dd67b541cad42ed763a14d37a354dc8b50b

/-- One again, which both sign. -/
def lowered : Envelope :=
  let envelope := signed (asking raisedDigest 1) loweredSignature
  { envelope with signatures := envelope.signatures.insert joinerId (.ed25519 ⟨loweredJoinerSignature⟩) }

def movedLateDigest : EnvelopeDigest := ⟨0x1227f205ddc0c6d55cf43b7bc21d30add108534bb30b5fc1a94cbbd5f012fe99⟩

def movedLateSignature : BitVec 512 := 0x17ded3eec9ec831c7a253de7d99dda2e5f93e390bf5f85d82944a8d6e18f3afe84bc316321bfa16faa8421c6cd1de88582b3b3238d8c54dad9d5b52415fbaa0b

/-- The founder's transports written whole after that. -/
def movedLate : Envelope := signed (moving loweredDigest) movedLateSignature

def appendedLateDigest : EnvelopeDigest := ⟨0x6ae8536ebc76d24a4698a70657129abb0e0dbcf43e52afcf15ac6461e4ffca6f⟩

def appendedLateSignature : BitVec 512 := 0xa3ba6ac98758fc9af4b29ea4087cfcb475fc7ff21ceb82984016f87e47c3e3b3f496f69a8751e4f2d95dc7c2fe36b6100ada87c92f70f498665304876442d206

/-- Or the one it lacks appended. -/
def appendedLate : Envelope := signed (appending loweredDigest) appendedLateSignature

/-- The transports of the founder's listing written whole, to the one at its socket and one at another. -/
def pairing (prev : EnvelopeDigest) (socket : String) : Envelope :=
  Envelope.new (.setNamespaceKey ⟨prev, clusterNodes, transportsPath,
    some (.array [transport "192.0.2.1:4433", transport socket])⟩)

/-- The second of them set. -/
def replacing (prev : EnvelopeDigest) : Envelope :=
  Envelope.new (.setNamespaceKey ⟨prev, clusterNodes,
    ⟨[.key founderName, .key "iroh", .key "addrs", .index 1], List.cons_ne_nil _ _⟩, some (transport "192.0.2.2:4433")⟩)

def doubledDigest : EnvelopeDigest := ⟨0x5db3a96265d975ee93025a1597525891ca77eb11cc6575ace3bc8881411bc357⟩

def doubledSignature : BitVec 512 := 0x0d313abfd7852890caa1b304930d47e5139483460de8816c1675721e302e9da693253df7aa98171dbf20130738ea87964ba5953d48e7a49b218a4f75edf47305

/-- The founder listed twice at one socket. -/
def doubled : Envelope := signed (pairing foundedDigest "192.0.2.1:4433") doubledSignature

def rewrittenDigest : EnvelopeDigest := ⟨0xe379764b01e0e4eca408e0189d0f9c34b4a1751c1bfa3767edea53bd1790525a⟩

def rewrittenSignature : BitVec 512 := 0xc8cab200ca8f9d34f9a215640080257cbbf9a868425d6030494966c23325f93178b4f248012830d74ab8955fe9aab680af4794f76e31c1bcfcd89fbb3088a509

/-- Then its transports written whole, to two sockets. -/
def rewritten : Envelope := signed (pairing doubledDigest "192.0.2.2:4433") rewrittenSignature

def replacedDigest : EnvelopeDigest := ⟨0xbb2e78e85c0a03406d18309bf1d4aa9a6d0e1382f252ace7cc45fa36d42e9e1b⟩

def replacedSignature : BitVec 512 := 0xf38cecfaea3eed6daf3d7c5bcf579123ebbb208fd61cd3fc41e191caf3f191f55b87a19e55b202fe8cae3a3dedf18f1fa0d4c7e72c32dfd39ef4bb4116ec4e03

/-- Or the second of them replaced. -/
def replaced : Envelope := signed (replacing doubledDigest) replacedSignature

theorem cfg_ne : "cfg" ≠ "" := by decide

def cfgKey : NamespaceKey := ⟨"cfg", cfg_ne⟩

/-- A namespace of one entry, set whole. -/
def configuring : Envelope := Envelope.new (.setNamespace ⟨foundedDigest, cfgKey, ⟨.map [("a", .int 1)]⟩⟩)

/-- One entry of it, set or cleared. -/
def configEntry (prev : EnvelopeDigest) (name : String) (value : Option Value) : Envelope :=
  Envelope.new (.setNamespaceKey ⟨prev, cfgKey, ⟨[.key name], List.cons_ne_nil _ _⟩, value⟩)

def configuredDigest : EnvelopeDigest := ⟨0xf96ce7e26f0b9ec69a7bdefe1411e7e348e4ca466a436330af56192616f6730f⟩

def configuredSignature : BitVec 512 := 0xc885ea3dcdfc363d92ed93ac46ad579d05de95f736b6067a75e0c637c434c7085742e9e08ae5f1e61859bcea08612f0837ab31ab5bc4f9779c1f5975e1dd3b09

def configured : Envelope := signed configuring configuredSignature

def copiedDigest : EnvelopeDigest := ⟨0xf50a097c2668d716d190c94253aca6aeda6bbc1594b385d5a813633e8408dd46⟩

def copiedSignature : BitVec 512 := 0x4345e5c69bd6d5eb1c4296390f20f41a6e535621b4e6b80ea662029236781b4e43fc910ee0e55f5514b75a0180c4a67f72fc3595ced4bee965e31fefc805c801

/-- The entry at `a` set at `b` as well. -/
def copied : Envelope := signed (configEntry configuredDigest "b" (some (.int 1))) copiedSignature

def overwrittenDigest : EnvelopeDigest := ⟨0xcdd02cb31a7fd747ff6328d2a1893602533c45ae855c57bf9c5e3cf30c7784d9⟩

def overwrittenSignature : BitVec 512 := 0x4391e2b8a717dac24c95e3649c4dba3b688ebcd1b2d67964b05851684a2d3afb73f954b74b159165efb5e7329e8e711909204d81819ce0402ad123a2e1067004

/-- Then another value at `a`. -/
def overwritten : Envelope := signed (configEntry copiedDigest "a" (some (.int 2))) overwrittenSignature

def removedDigest : EnvelopeDigest := ⟨0xac8a2236b43bd14a5e58c2b3e0801eee69587ee02810e58ce27cb7feb7c4513e⟩

def removedSignature : BitVec 512 := 0x2429497d8355809119b636de38d03c90fe8485050985ef50fb9ca817e2eb9af5b0908750f6b51be03dcf5d0e7cc900355b5d64ae07d6ef7bef0ef73aa4ef100c

/-- And nothing there. -/
def removed : Envelope := signed (configEntry overwrittenDigest "a" none) removedSignature

def addedDigest : EnvelopeDigest := ⟨0x161d2dd5fa68ec2f4873dc35a15db1cf970f3f57e3e95cdb272b73a1236f0393⟩

def addedSignature : BitVec 512 := 0xbaa839b3be97c9a51b5289505a7292f3972cc3c6dca42f35dc07f0f0d624694884ff2c00e6e686a6538178335ff3fc15e3e7abefea3c86ba2a32aaf3c5824608

/-- An entry at `c` set by another client. -/
def added : Envelope := signed (configEntry configuredDigest "c" (some (.int 3))) addedSignature

def copiedLateDigest : EnvelopeDigest := ⟨0x0af7ebbdc6279600c6b6949a801e1166a12cb6a13439f0599952b61125e2ebc8⟩

def copiedLateSignature : BitVec 512 := 0x8b817a4720810d80b4f7b46718fa3b355339e9334d7489b6418632c947e0b1042299e705bedb02cbb699a401680a60bfa3eeb182e564b00f4155fd33514d4e03

/-- Then the entry at `a` set at `b` as well. -/
def copiedLate : Envelope := signed (configEntry addedDigest "b" (some (.int 1))) copiedLateSignature

def removedLateDigest : EnvelopeDigest := ⟨0xa27c1710eb152ca2ba54161021cff468d8f7eb3897cf3fc8cd5e323705a03425⟩

def removedLateSignature : BitVec 512 := 0xe1db1c832d9d5dc5f47f9be7c6a2d6514c6237241c68a4ff0af5fee64bf70ddaa32b782e1856183ec1a34805013444302c2b26cfaebe62af2f1a361650412b0b

/-- And nothing at `a`. -/
def removedLate : Envelope := signed (configEntry copiedLateDigest "a" none) removedLateSignature

/-! ## What is outside the repository -/

/-- The digests over which the founder signed, with its signatures. -/
def signatures : List (BitVec 256 × BitVec 512) :=
  [(0x14f3a0bd17d36c8ab5cf347b1f3ea39dd871b351f49af55559a3fcef918aeb81, foundingSignature),
    (0xea45515730d9b427ce8f7113ed08568e4b71929acbeb542dd6200e33876b3789, trustedSignature),
    (0x5d95961123d467755d1c8b98417f06c3d8a771522ec8d693ec3343a90397ec72, joinedSignature),
    (0xc1cf460b2f14f7a5f7f5a210c64187684119ad132007b165f903838dd84f3fa8, claimedSignature),
    (0x92a8a9b8d47a6f6f9d313a37046cdd2f44e0b0fcc44efaa89c731b3514cd736d, capturedSignature),
    (0x4d22be304481b3125dc2a7de25da7c91a30f5b9c204929fb5c9ba2bc6641124b, delistedSignature),
    (0xd87581a847ae7792831aa92424d41c32c032175c1d2059243ef3fda00f2eaebe, strandedSignature),
    (0x65b2721cb4d3e402013abbd72a0858f64fa6bce81ea68e2a24308f41ca65bf05, unlistedSignature),
    (0x7cf09262d0fb38ceddc2ec732d227b1ff52e9786d6400d2e03e35dd064b576a3, movedSignature),
    (0x8533c9dcd657a50982eb9d19d935f14035b68f992f37a46748a62ba3a1b66c31, appendedSignature),
    (0x31c139db6e1761fc963ce2c845cc57a7a9a0c6016b1df5595327ff002d451d8e, raisedSignature),
    (0xab005addca7f2475386f4fca5f65cac61b34b2d7cc83ab9f9c1c46e0a8e2ca79, loweredSignature),
    (0x20b2227fb9156a492a4f6fe869e1bd3dcd210be995b1a98039d165330fdbdada, movedLateSignature),
    (0x4888afc6a85abf73292bd250a70dfc8fb4457df2c4c3a2630c271bad28ee14f1, appendedLateSignature),
    (0x905331582a9850cc85dbd1a3b755d937f31e6d60d57d6ad510d1dfa7e7c7ac2d, configuredSignature),
    (0x03d83c068ae485b18a2a7c6db841a2e17fce23365534495ece96cc9c1c0ad2b9, copiedSignature),
    (0xb78a0eb6e73864db35206662021787c708514b31ff98cb42b3ae8e1c2dc1e215, overwrittenSignature),
    (0x519ca1e4cf07678c71a9fa993e6c02bd033835bfed218d1c22ff9a3d902695fb, removedSignature),
    (0x42c361fe042c76f78ffc62d3edb63fe7082b60500c9efe3d7a495792ee2be576, doubledSignature),
    (0x39f4a36e3ed969384175f5e087080c6f7f44bc04769b888ba6f6235613128a54, rewrittenSignature),
    (0xbc3a8c5a785df8c8f4deead06969f96429242b6cd9e1db2c816d75a5cc5f4070, replacedSignature),
    (0x808688a2050f756589482cb9d1772eb6a18621a2cfd59cd1e1da4915080165ed, addedSignature),
    (0xe541ea6d584920cd051567be261a4c05f2d3ec10e1860e00104881f4e11c81c3, copiedLateSignature),
    (0x7fac9ad9440f26b90abdabdc0b38a51b969b8e93a7de2c6d49f79b9535e04a16, removedLateSignature)]

/-- And those over which the joiner did. -/
def joinerSignatures : List (BitVec 256 × BitVec 512) :=
  [(0xea45515730d9b427ce8f7113ed08568e4b71929acbeb542dd6200e33876b3789, usurpedSignature),
    (0xab005addca7f2475386f4fca5f65cac61b34b2d7cc83ab9f9c1c46e0a8e2ca79, loweredJoinerSignature)]

/-- Every envelope with its digest, before and after it was signed, parents before their children. -/
def table : List (SignedPortion × BitVec 256) :=
  [(founding.toSignedPortion, 0x14f3a0bd17d36c8ab5cf347b1f3ea39dd871b351f49af55559a3fcef918aeb81),
    (founded.toSignedPortion, foundedDigest.hash),
    ((entry foundedDigest trustedKeys joinerName (.key ⟨joinerKey, 1, ∅⟩)).toSignedPortion, 0xea45515730d9b427ce8f7113ed08568e4b71929acbeb542dd6200e33876b3789),
    (trusted.toSignedPortion, trustedDigest.hash),
    (usurping.toSignedPortion, usurpedDigest.hash),
    ((entry trustedDigest clusterNodes joinerName (unreachable joinerZ32)).toSignedPortion, 0x5d95961123d467755d1c8b98417f06c3d8a771522ec8d693ec3343a90397ec72),
    (joined.toSignedPortion, joinedDigest.hash),
    ((entry foundedDigest trustedKeys founderName (.key ⟨founderKey, 1, ∅⟩)).toSignedPortion, 0xc1cf460b2f14f7a5f7f5a210c64187684119ad132007b165f903838dd84f3fa8),
    (claimed.toSignedPortion, claimedDigest.hash),
    ((entry claimedDigest clusterNodes founderName (unreachable joinerZ32)).toSignedPortion, 0x92a8a9b8d47a6f6f9d313a37046cdd2f44e0b0fcc44efaa89c731b3514cd736d),
    (captured.toSignedPortion, capturedDigest.hash),
    (delisting.toSignedPortion, 0x4d22be304481b3125dc2a7de25da7c91a30f5b9c204929fb5c9ba2bc6641124b),
    (delisted.toSignedPortion, delistedDigest.hash),
    ((entry delistedDigest trustedKeys joinerName (.key ⟨joinerKey, 1, ∅⟩)).toSignedPortion, 0xd87581a847ae7792831aa92424d41c32c032175c1d2059243ef3fda00f2eaebe),
    (stranded.toSignedPortion, strandedDigest.hash),
    ((entry strandedDigest clusterNodes joinerName (unreachable joinerZ32)).toSignedPortion, 0x65b2721cb4d3e402013abbd72a0858f64fa6bce81ea68e2a24308f41ca65bf05),
    (unlisted.toSignedPortion, unlistedDigest.hash),
    ((moving foundedDigest).toSignedPortion, 0x7cf09262d0fb38ceddc2ec732d227b1ff52e9786d6400d2e03e35dd064b576a3),
    (moved.toSignedPortion, movedDigest.hash),
    ((appending foundedDigest).toSignedPortion, 0x8533c9dcd657a50982eb9d19d935f14035b68f992f37a46748a62ba3a1b66c31),
    (appended.toSignedPortion, appendedDigest.hash),
    ((asking trustedDigest 2).toSignedPortion, 0x31c139db6e1761fc963ce2c845cc57a7a9a0c6016b1df5595327ff002d451d8e),
    (raised.toSignedPortion, raisedDigest.hash),
    ((asking raisedDigest 1).toSignedPortion, 0xab005addca7f2475386f4fca5f65cac61b34b2d7cc83ab9f9c1c46e0a8e2ca79),
    (lowered.toSignedPortion, loweredDigest.hash),
    ((moving loweredDigest).toSignedPortion, 0x20b2227fb9156a492a4f6fe869e1bd3dcd210be995b1a98039d165330fdbdada),
    (movedLate.toSignedPortion, movedLateDigest.hash),
    ((appending loweredDigest).toSignedPortion, 0x4888afc6a85abf73292bd250a70dfc8fb4457df2c4c3a2630c271bad28ee14f1),
    (appendedLate.toSignedPortion, appendedLateDigest.hash),
    (configuring.toSignedPortion, 0x905331582a9850cc85dbd1a3b755d937f31e6d60d57d6ad510d1dfa7e7c7ac2d),
    (configured.toSignedPortion, configuredDigest.hash),
    ((configEntry configuredDigest "b" (some (.int 1))).toSignedPortion, 0x03d83c068ae485b18a2a7c6db841a2e17fce23365534495ece96cc9c1c0ad2b9),
    (copied.toSignedPortion, copiedDigest.hash),
    ((configEntry copiedDigest "a" (some (.int 2))).toSignedPortion, 0xb78a0eb6e73864db35206662021787c708514b31ff98cb42b3ae8e1c2dc1e215),
    (overwritten.toSignedPortion, overwrittenDigest.hash),
    ((configEntry overwrittenDigest "a" none).toSignedPortion, 0x519ca1e4cf07678c71a9fa993e6c02bd033835bfed218d1c22ff9a3d902695fb),
    (removed.toSignedPortion, removedDigest.hash),
    ((pairing foundedDigest "192.0.2.1:4433").toSignedPortion, 0x42c361fe042c76f78ffc62d3edb63fe7082b60500c9efe3d7a495792ee2be576),
    (doubled.toSignedPortion, doubledDigest.hash),
    ((pairing doubledDigest "192.0.2.2:4433").toSignedPortion, 0x39f4a36e3ed969384175f5e087080c6f7f44bc04769b888ba6f6235613128a54),
    (rewritten.toSignedPortion, rewrittenDigest.hash),
    ((replacing doubledDigest).toSignedPortion, 0xbc3a8c5a785df8c8f4deead06969f96429242b6cd9e1db2c816d75a5cc5f4070),
    (replaced.toSignedPortion, replacedDigest.hash),
    ((configEntry configuredDigest "c" (some (.int 3))).toSignedPortion, 0x808688a2050f756589482cb9d1772eb6a18621a2cfd59cd1e1da4915080165ed),
    (added.toSignedPortion, addedDigest.hash),
    ((configEntry addedDigest "b" (some (.int 1))).toSignedPortion, 0xe541ea6d584920cd051567be261a4c05f2d3ec10e1860e00104881f4e11c81c3),
    (copiedLate.toSignedPortion, copiedLateDigest.hash),
    ((configEntry copiedLateDigest "a" none).toSignedPortion, 0x7fac9ad9440f26b90abdabdc0b38a51b969b8e93a7de2c6d49f79b9535e04a16),
    (removedLate.toSignedPortion, removedLateDigest.hash)]

scoped instance externals : Externals where
  hash portion := (table.lookup portion).elim (.error .encode) .ok
  keyHash key := if key = founderKey then founderId.hash else if key = joinerKey then joinerId.hash else 0
  verify key signature digest :=
    PublicKey.ed25519 key = founderKey && signatures.lookup digest.hash = some signature.bytes ||
      PublicKey.ed25519 key = joinerKey && joinerSignatures.lookup digest.hash = some signature.bytes
  keyIdToHex id := if id = founderId then founderName else if id = joinerId then joinerName else ""
  keyIdFromHex name :=
    if name = founderName then .ok founderId else if name = joinerName then .ok joinerId else .error "no such key"
  EndpointId := BitVec 256
  RelayUrl := Empty
  SocketAddr := String
  CustomAddr := Empty
  endpointIdFromZ32 text :=
    if text = founderZ32 then some founderEndpoint else if text = joinerZ32 then some joinerEndpoint else none
  parseRelay _ := none
  parseIp text := some text
  parseCustom _ := none

scoped instance addrText : AddrText where
  endpointIdToZ32 := fun (id : BitVec 256) => if id = founderEndpoint then founderZ32 else if id = joinerEndpoint then joinerZ32 else ""
  printRelay url := nomatch url
  printIp socket := socket
  printCustom addr := nomatch addr

scoped instance : DecidableEq Externals.EndpointId := inferInstanceAs (DecidableEq (BitVec 256))

scoped instance : DecidableEq Externals.RelayUrl := inferInstanceAs (DecidableEq Empty)

scoped instance : DecidableEq Externals.SocketAddr := inferInstanceAs (DecidableEq String)

scoped instance : DecidableEq Externals.CustomAddr := inferInstanceAs (DecidableEq Empty)

/-- How long the encoding of each envelope that was signed is. -/
def lengths : List (SignedPortion × Nat) :=
  [(founded.toSignedPortion, 459),
    (trusted.toSignedPortion, 282),
    (usurping.toSignedPortion, 282),
    (joined.toSignedPortion, 319),
    (claimed.toSignedPortion, 282),
    (captured.toSignedPortion, 319),
    (delisted.toSignedPortion, 160),
    (stranded.toSignedPortion, 282),
    (unlisted.toSignedPortion, 319),
    (moved.toSignedPortion, 284),
    (appended.toSignedPortion, 283),
    (raised.toSignedPortion, 185),
    (lowered.toSignedPortion, 287),
    (movedLate.toSignedPortion, 284),
    (appendedLate.toSignedPortion, 283),
    (doubled.toSignedPortion, 319),
    (rewritten.toSignedPortion, 319),
    (replaced.toSignedPortion, 284),
    (configured.toSignedPortion, 162),
    (copied.toSignedPortion, 161),
    (overwritten.toSignedPortion, 161),
    (removed.toSignedPortion, 159),
    (added.toSignedPortion, 161),
    (copiedLate.toSignedPortion, 161),
    (removedLate.toSignedPortion, 159)]

scoped instance encoding : Encoding where
  length portion := (lengths.lookup portion).getD 0

end IrohLotus.Wire.Founded
