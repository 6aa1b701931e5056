import CryptoConditions.Proofs.Key.Text
import CryptoConditions.Proofs.KeyStore.Listing
import CryptoConditions.Proofs.Storage.Directory

/-! Keys found by name. What a store finds is up to what its own directory shows, and the text of a
public key finds the pair in the file of the key. -/

namespace CryptoConditions.KeyStore

variable {store : KeyStore} {files after : Files} {name : String} {key : StoredKey}

section Alike

variable (alike : Files.Alike store.directory files after)
include alike

theorem load_of_alike (publicKey : PublicKey) :
    store.load publicKey after = store.load publicKey files := by
  have same : after.read? (store.path publicKey) = files.read? (store.path publicKey) :=
    alike.read publicKey.fileName
  rw [load, load, same]

theorem list_of_alike : store.list after = store.list files := by
  simp only [list, loadFile, alike.made, alike.names, alike.read]

theorem find_of_alike (name : String) : store.find name after = store.find name files := by
  simp only [find, findLabel, load_of_alike alike, list_of_alike alike]

end Alike

theorem resolve_of_find (found : store.find name files = .ok key) :
    store.resolve name files = .ok key.publicKey := by
  rw [resolve, found]

theorem find_base58 {text : String} (standard : key.publicKey.Standard)
    (there : files.read? (store.path key.publicKey) = some text)
    (meant : StoredKey.ofText text = .ok key) :
    store.find key.publicKey.base58 files = .ok key := by
  have loaded : store.load key.publicKey files = .ok key := by
    rw [load, there]
    exact meant
  rw [find, PublicKey.ofBase58_base58 standard]
  dsimp only
  rw [loaded]

end CryptoConditions.KeyStore
