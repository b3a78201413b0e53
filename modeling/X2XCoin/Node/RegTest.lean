import X2XCoin.Node.Run

/-!
# A chain of the regression test network

Fifty-one proof-of-work blocks on top of the genesis block, sixteen seconds apart, each with nothing
but a coinbase that anyone can spend.  `regTestCrypto` knows their hashes.
-/

open ByteCodec

namespace X2XCoin

/-- What there is to know about a block: the nonce, the id of the coinbase, the two hashes of the
header, the stake modifier, and the checksum of the undo data. -/
structure RegTestRow where
  nNonce : UInt32
  txid : Uint256
  hash : Uint256
  powHash : Uint256
  nStakeModifier : Uint256
  undoChecksum : Uint256

/-- The rows of the blocks at heights 1 to 51. -/
def regTestRows : List RegTestRow := [
  ⟨65967,
    0x14b8e44a4395f8ddca88e61d693bd720d0db1de667c678d7503821b16f9dfa7f,
    0x39e232913909a3a94619809cee429e13f989b75a04d8dc8527851fc66b2cfff9,
    0x00004fdd53b3401693557edf5915e81a0e4f151b024fb410a71a49a330d60ee7,
    0xec2dce283faf639d7dc480d43070a31cddd7575ceff094e96e9b50c3b2aa81f8,
    0x0a95fc0d140b4e42373fe748c5157ad855ed0c60bb0ee9e861ea7aaabd8fdfb4⟩,
  ⟨53548,
    0x4b2daae53a9ba319264f28d53daa8847cb13f77f1a8c77d7623ca6866ab68169,
    0x6842e5198f3cabcef7dfee12bff5aacd597c3dff2095dc3cb9cdff7198360885,
    0x00005775c0162f87035c7b560ff77a7856936c35f3624dfc47fd495099963ef0,
    0x695c20d0b86d135fd5faabc1243958d1b3143730e28c1527dccccb645324eb8c,
    0x06ea8b67201a5aae45b3d7d743f7e7090651babbf35c4fc81fbc0fb974f7a081⟩,
  ⟨64927,
    0x90a7862b76c9d3974388ec5d33699dc2be312ae9c41acba0b0d6a3cef6bfff4c,
    0x862c29e2ba360c821afc96c66bdbc44ae5ba727d979d6df55afa4ce69c0f1c3a,
    0x00008e4533442d758c69225c5c46477ba7725aa821d5271a5343ca3d9ffbc7c8,
    0x6702d4486ad04535018ee7fd4d82de06b96b8287843b032f7b67a3e9473f1f96,
    0x780f75940b986d41fcba4dcfd6e3d1b801fcfab4f4d4a0f8141211b0fefc7db9⟩,
  ⟨103084,
    0x70254cba8b19286e3fb9b62623aeafd3aa843a192b12e3794f21b09e43304028,
    0x5acc0b14acea33895b9ff71aef6b05026970dcbeaca92aec5178b26f26933969,
    0x000083bff022e70db620be48dac57a20b16b7ce86e86f855d1b5054f535c07ed,
    0x9ccc6ec137ccb4cae527125790a35a99b8148895ea0bfafbd7f6bd5ace18ed64,
    0x0dea605f6b096a8d0078fd924f0b30534b189c36f60bec4f2b83dd60d0348f24⟩,
  ⟨25994,
    0xe94b6557b36dc4a5e50be9a85808762b4a3891a1d1275ef49ea4d3a53b6c8aaf,
    0x7a304fcf687f9ef18165932dff570c7cdeaeaf3372fb7c65fc092f45f9548ee1,
    0x0000777eae2491e3ca3c24363ada38855ff8fce2aba67fc97375b8a4d9e0a49e,
    0xff866b08152a299e3c44b3d00ad8f84c4a435089ce38f1839ada3fb7cfbf7033,
    0x380d23888fa77fd80b94aa96ae6f030900fcf6cd48f191a5a918c442c7eedf52⟩,
  ⟨19936,
    0x3ae30f7fb4c8d66bb2402168dcae9d571476973b00eeea689299e651a3a33f16,
    0x372be0ca9636a449559a09dfbdfc3bdfbc28fb50d625e3c665cf299229e5aa21,
    0x00006ab01f6476c0550d45ee15c7d1acf4127943e5c3776e9e3f8cabe4df756d,
    0x138188960d3c18c6d61bc58c7696a4fa178f0fbc261396db3826fffd3faff0b7,
    0xfc2e991a3d22deefdb66c175b49d415470a4286627417b422706c25288904528⟩,
  ⟨157558,
    0xdee930ad6df06d27b6382815eaa4eecc8bbd99ae5d7813f7877166461ccc824d,
    0x60596be17c9d1922ba6df41b376bb02e147585bef377a0ed4c5a5e6dbabb569e,
    0x0000be8911556821a6ddf8470bb9cb2352adf95807db596734d36e36a942c233,
    0xd73abab33401af932efb72515fc1a0b038a4f494c37a97e892dd4cfd838c8900,
    0x81334d6aaff554a1e90534901bb883aae0c3e14ce8c159bcfe336c61c85cc0f1⟩,
  ⟨68695,
    0x5246c8f3b5aab999b2146659fab526851e1dcfa84e5f8250d0cb0fc990796035,
    0x6a565f02896ea2b64351ed6ee76b62e287c3f9cd0ea4b93e17711f20c1223d01,
    0x0000a734cb956852ffca566cb7386f44d84c9ac720bcff09dff1349b82a8465c,
    0x8741a018a0b700036433038e764b3a013f770873832e60ae88c7db226249eba7,
    0x993ee55aa08fea1dee4337d045e92947c7663e46064574686e58fb3a6ae198f3⟩,
  ⟨173822,
    0x6eafc1ce5b56cf459d0350e0a37ccf6264128fab9e0618501a2aea80f843b07d,
    0x1fc571a50aace9f4a18f7758426ad67cad41f0fd2d8f9b23eb201b02f94e10c7,
    0x0000e63bde6799a8aeb5fd7349f3ed5567f5deb68d745413881a203f177047cc,
    0x4797e57f86edf55c3600e886161b3f249e9b8231debb148391480167d28011a3,
    0xc0f3515e2600d19cff6c2dfcadd09a78ccee979c6aa5fcaf57bf8fa2607dbd91⟩,
  ⟨149738,
    0xd71b0da6808c567a6203de7bc16cff4ac302cd43d16a06f1662aa14bdec9d5ff,
    0x17b177bf7ce2e8a576a93c2c2b42a6899925192ec7873a489bbad7accf7fbc25,
    0x00004e6479ab3c2708c20caddd4f353e9b72cc3c8f12840144c18eef7ba17b6e,
    0x39686a4fa0de47091928822a7347bcb008a0f9003b9d358b9bc9792e7dfc5116,
    0x2096127777e17fad6163c330eec3e81254f1951559fd804b6c4e5f677bae016b⟩,
  ⟨11986,
    0x1827050b04b2f83e0da65708e007310c5a5e899193c5f8f0b21a4d09373464fb,
    0x5b1680e4659ff495038a69b350a8687e9e6b3de3ebed208f8569253ac47c352d,
    0x00007c9ca0aaa7cb7bd471948e7d09030c8e97d40be3f1eb30a50555fd68f423,
    0xa21b9b5c8c047e5b54c626620653154bbaf20d8f2fa411e8509baaaa8d656b36,
    0x0c8a74cfc58fdd0f4a75129656991596e894b9d716e65ba8b9ae5c3a74e1e243⟩,
  ⟨296338,
    0xa390c1b93227ac1e18997dcfbd33b2be3238526c5084bbb14a57335f835a52d8,
    0x6cc12e9274c4cac1aeb4f287760aad12b6cdb975a4da45b2e708d1565e6b3c7b,
    0x0000b3c61630bee2870dc79f7116951ab1b4f32e89e8e0536337b5d50e36b526,
    0xaa9a8f54c7a1ea02215e1d0a2d385584a691eb4a3992c508c36291546b6c5e44,
    0x8a7970236cc0cd02400b9fbba2c83d9a22cffe41cbc54eac54ea455597b94b6d⟩,
  ⟨21197,
    0x4b2379b4e7b9f3dee30a0e28d3cd6ab5c1d0b464d54005d3367e0d0d5af30325,
    0xfb6db1a4294e2d631def5325213f9e54de5acf34e3c246c4aa1d494143650ccd,
    0x00002ee64985962085433c929396b0f1df1211740dfe38625d284a665127877c,
    0xc8e7784a9c9dd8a0fc901b125f3b6f46a6f94747b16603a05084953e386c8366,
    0xc189c74f5982d71d2439161fcc41948e68fa63d33546f220483bf58fd3944717⟩,
  ⟨54224,
    0x1c905b69a232936fa3fdd7cbba4e96a4acc3cee9f859bbe4efa04f4508c6ee48,
    0x5b9671e1e8a3e1059db6e128ebbbdcf0a8e6e019ff2685da2d0b69bc52083095,
    0x0000a79d4cbe1f30de1ec1d1bd3b3f540758b1640115fbb22184f358fbbd933f,
    0x9dd6986bb8cfeb3da0cb7a679d54640b0b292009423b49127610550b9bf40101,
    0x784f9a7089dec4c700ad6f40051e7ff9af47df9986575a54f474733fd03359d8⟩,
  ⟨3088,
    0xc5946358bef293a51c6fd529b4eec8eeaa2b8b9c8a622d792d939d59fc68c51c,
    0xb47e71d9210707ca2fb45542f2f527fa21f895c1cd832bde2a51baaacfa76377,
    0x00001f8ec3406554037194a80fa3a98db1f8c8bacb8eb77f0569dfe60d6637e7,
    0x2034dd0f1069024646f9d85f316d7dac4a9bb520b5863a578efd5589d7699c32,
    0x765d8a54297891c7129140a07a61cde1d152b699d83373c0a16ef35e6aaf06bb⟩,
  ⟨104205,
    0xa3151e6dd4b89e5df36d1e7ff31e89e7e734dca94076aa9eec62bd61f240f226,
    0xf7f8d1099ba4e7ac3d1c49e51df4d37ae14834026fda7596c5f658ff9a8ddfc4,
    0x0000de7d6c76fc3951ab2f5f765fcdf9926693350fbb5a04d1e8a0c4f1c83047,
    0xb3646bc44045bfd0976b637753510de67581377b3450dcf39a640c72deb8067a,
    0x9d938667f156154ceca8f0f7d89fbcee61f36ee858f880b97dd353f3dc98a790⟩,
  ⟨86585,
    0x6cebcac87cf89425862373fb8fe91490d92bda7b295c4adcaeec4af79763ddb8,
    0xdd4ee62093431cd6df8bec5857f00c195f55913de776de639a38462d50260fac,
    0x00007848519cdd01069e72594b924d0e1dd08551b83d803649be0b60ee1a4adc,
    0x00acb2b45823a3ddaa4eca8040f16302d17bd723c2a136b253fbdec081150628,
    0x50f4663c6465bb67e204ce8763be168ff6e2b4839f29c160ea15b547c0155ccf⟩,
  ⟨51672,
    0xc3d0583564db6a1ab199bd4642ecb933c43b6467c99c9281962b3867ab5b869b,
    0x13dd1652f956e4259e3e004a42062598c9d556f1469dd36ce3e128bf522fee55,
    0x00007333c311c497fe3b514b16d1c270604e6f4a6fe514a661d987800db53d8a,
    0x02f22c7138f6f1a9355529f5a5810eb4c4a1d8651ed16f0bcd9d861c78de3890,
    0x4905f85ac77b5c79a225941c80127caee6cfdd179a4077fc45c7d74a4a5c76d8⟩,
  ⟨56527,
    0xb948bb3181c296921046156700c5e4f0368769b31a02fe47fd843656656b089c,
    0x3cde68a5edd106104ce0a3d722eff83873b94a0805dd77eaf889e697a8674678,
    0x0000e757653026642e39f7e3dca5e66c5fa5604d7c2113d21f5ee71e0c77da88,
    0xda000842bf69593427759c38e8f30e4b44bac7011c2942fb3065a2538426a039,
    0xc1e4c3880d89de0f73ce192fe816cb349ecd837954d4c50e6570bb84a7133f57⟩,
  ⟨115447,
    0xd403b419b611aff02707457e5ef90bafae2808bdab1a48e23ffb360b3c6cc83b,
    0xf667cc1819f6a256649c6904892ccee099cbf63cc8dc65c65d96f835c7aa4299,
    0x0000273ff34f35655bebd0fa1e641489a93b3eb36a94a1774aa4dff9b6eca9dc,
    0x0c167704de90978de17fbd900386b2edfb0a91e5646e0dfd636b1eb0cf507b7b,
    0x935a4dc254ca32b088129fd286b876083e00fb04a56870979fb39bbac673d48d⟩,
  ⟨517,
    0x39ea356ddc2e86a0ee3e8021e8435bfe52463f536a3b16773ff5c0354fa5934e,
    0x56c10007f953cb0036cbfe367ecb95499435315e74ab53def698e591d42ad41f,
    0x0000a10078ef94881a34a5e25fb9e038902cf802c8f50e6418c393cdc9aecc75,
    0xe9100660b06c52ed925b1ea791e54e75767ef696e62496608679d7c4bdd15120,
    0x490b039024aa61fa9672e1159d23c51208b13c5845212a02d5916a0b6109e77a⟩,
  ⟨126722,
    0xe5edc7be74738d8af00ee2503a6fcdd7507b4d6ffd4036f52bd82882550bcea5,
    0x1b59c6dcee905e014614ab154e0a9a291bc3c5c3d5c0b3fba9acab3c834f2f42,
    0x000013f7850fd33ab6954c534b848456a529c28f3a46d9707eb8fa74766098cc,
    0x5afe9898b74ecf5f3690874b6341a646ed9066c8bc0c664a058406d9be71aeda,
    0xbbf62d5856f8a90f069610de8b57be3604861796144f8bb6c052547f3ddf6e13⟩,
  ⟨41288,
    0x89a6bc5b98c7083fc359623fb653d0ed30956c0d3d32ab7f39f8a6c172ec3136,
    0x3fe6f513047a7271243bcab7da8337ea480e2b73aac9c193bbd487a61854bae2,
    0x00002e7a7c7005e8b5e30e68431d68cfb4a6f2392cf00c2397ab745d167bb35d,
    0x764136a82e3b2347bc5cc50219cfeaa176c9c1a1f6fa47386ff728b36f30e635,
    0x55dafc3fe66b2276ad252150ae0f2d57ab5cbd091d7ff4f7d1e7280e401b7e76⟩,
  ⟨50412,
    0x533dcf32194f9e6275202f7b40c163caf85a231e770263a675081f4ea16cfb0d,
    0x0b8674ce451b5eb9acb1956631cdc3f9c07138223182453ebe84175e56eeb66d,
    0x0000d62a21296b0d8e03ca545bd7800803e43b3b715b79d90daa5f5a0d0db7db,
    0x82994cf4ca1831c53ec6631c7db86f856d7869678344ca6b33310f438b7b06ff,
    0xd33793f490da2cce1359480035b83dd357265fc537f294ab720ed987b00bbb72⟩,
  ⟨98917,
    0x109d7e9345b8559644250dc751f4e04826b4fa4598707c43fb25452e31a273c7,
    0x9489f16dbed016e389c71cd9951a8c3394d133cbd654b30cf69f84766bc7b9ab,
    0x0000336552806e9a3069397ffd7aa7f77caf432b17eb6bd9344d332200802546,
    0xea6323d3cee5b6d0dc9aa41a4ba3fbd1c02cc38ae8e882d7df85859a0907d270,
    0x216ba6d7dd4ae7db8f181ed26f575f6d0d8f778499bcd351132d3c80e3dcb0b2⟩,
  ⟨32712,
    0xc08cb24ab48b9d1389cf11d5f66b43d9298d2d3b6c1a0c750507ece515c478b8,
    0x85935cf564a9af1c2c2795a0fd320e25dc4c5261cf797d29339e1b53cf539458,
    0x0000144622bcea662793ef4225207b9f291d828220ec7b1ec0433ce573bad74c,
    0x0bf5db9d870e2281588c81ec9c5ebd2d35b619a303899816dada2503f306f9db,
    0x92418c64770722a85989eb62f9f8a56c771d55da8c08589c120c6aba6b46827c⟩,
  ⟨106592,
    0x1be3fc56c173f2cbffd45a17fd61a35e45ed19702fdd1c9910e69529bd87e6ba,
    0x6192c4a6e0ff0507e747fa1e33726a3267877e19109f7ce3a7ccc89b3c6e1324,
    0x0000c20bf84fdb0caf2812b855e0e9bbcfbf1d15e951584c4c670b4b865a236e,
    0x65bfd08b57588803a1091adfec563d5a68689e6ce37f1c2558d029908eab7e23,
    0xb6c31814b2fed4137cd0a86fb04267a9b93e35bb5f7dcc62faf69483d181731f⟩,
  ⟨11250,
    0x79ae5acd16f0f4453867bffcb222d14c82bff116fe6802b14ddaaf71eca4aa9f,
    0x4aad5fdd432a404f06fca43df6966a90d613978b3fb0eecf5fa6bcbf4090569c,
    0x0000740ab009606320b92cf9bdc9b42df7b41b215134835d86f5a6963dcb1527,
    0xf777a60ca7051859c6492107777a7d186f8159858e67726aa95d9c6d24ebc6a7,
    0x01eb96f771918fc5e4b0c27f47595b4bee3af25744e44184aae302b26caeff37⟩,
  ⟨54186,
    0xbe078193ac7300c92be2691ebcb1b45c2656fb982e21c36ed7b3c3f0fe3badd2,
    0x3bb904e2f641641461a86a6e7dd18b24637e612bffb95801a99cb0fb0dfc8390,
    0x00002523a2e3fe383c76f343579220dee252d741e55bcf124d143f8247b5849b,
    0xc034aeaa4ee65f3da2c41adaa5e87407eaa10415ea05c59d2566540ddc680020,
    0xdcd792de32816eb1075c463667940538bec16b3af0251da4ca34b38254fde79f⟩,
  ⟨179934,
    0x1126f85eaf82613349da94f50521f7b84605830aeb4b54973844054482771b82,
    0x0943dae347a7db85c5237e9af6ab392f0914bab2a59f4f3e158b9036755e908c,
    0x0000bb48219d920e80a49a5ca27704fcf5d9985e93c75d77f80cb01de7b520b4,
    0x0051a5e77fbd2e68c7a7f290fdc35c2fe6d6307f59d5d2a3efa116a5532a6513,
    0x0c005905478b15082bd7cb1d5c975ed414a1536a2b39f8098aad791c1349d81d⟩,
  ⟨1248,
    0x29d8b70c200567fe5e66cdb941b1a84f7cf9f85ca1447c7f0e58488eeeb03f6e,
    0xc2662db88946134402e09538e4e377abf73008a0269c4bfcf40ca04d960e6d43,
    0x00003ad761e3dbeb3fdc05c900fd59d7e3992d373725188a889f86aa6263b3bc,
    0x86e3730979fd18ba3f1dfa90bd6242f706fe6e9b84ad3b8b6782ab599dfef17a,
    0x5258374721bf299438fd33a3b8bf1f93d3e0e441cce2c1db4caa0682f30af0a9⟩,
  ⟨16219,
    0x95c438a5f3e0ce37cac841587deda995604d906af13062f3bdc0052ca654b8fe,
    0xc52fb8025289dec666cb61fb54536a4879277ef963efa1f775ed5d30479c0853,
    0x000076adf5532567597f36766c5633ed554258c68fdc2017e6f3f5070f8a20b4,
    0xc3d618d1be5ac193128ab1507045238371d0e48d93b0cf4c35140a9e7e8b1372,
    0x3bc2d71ea49b87a268f9accb19e6a7259053d7da30be40e486e2581430b92908⟩,
  ⟨104421,
    0xe6c3f39461277e9ad48264ef110694307331f36bc52c05a2d705eeaee385366e,
    0x3eb103840beb4ad4be5a39b6176f660709aa1e3d224f12184a5e02dde744ba43,
    0x00007915f87bbbade2685b97ee1851c97b24897cf4c7578f9f1db085a4d9857b,
    0xda2fb8544178804ffcb4d0a3daa8004202a42ed02a59fe2d072b4a50f19a34f7,
    0x1196fcabe8d70d5153a810ab3421747e81bac58dc0a4f7cf353b9009ce4f2e24⟩,
  ⟨152528,
    0x8f4a6d8d89863f68a7607e5e274b5680b0697d85adb405d6c89ceab1a0ddc0de,
    0xa12cb8b18e6ee454f286b83ca4cfc2ba569801ba42195b6849b316b65fd25633,
    0x00008d828969984b5742a2f93a114f9858ffabccdf894c47d66f5eabf99caeb5,
    0x86f6cffdf5aab05dbd54274c719df385bc052773450510e4eabfc4e9fc01b347,
    0x3f446252e2324c4c71fb54b044d3530e0badaab3ce2ce34c77143da4d422829e⟩,
  ⟨137377,
    0x116e2b07fe5ab2149cb9571c778b3f17ab03194969587bd31c77b861bed89d60,
    0x5ec7266ed66ec7968cf8fb7d179d12160fb875bf5933a53db671ca248af7a818,
    0x0000af513665ffd4ac44c5798e9d74e79ea1584ebcbde2003079c77a149df977,
    0xa8cb360cf1c5a1cbdc887da56299032329cce5593bc525184a818bc32c281c0d,
    0x2e5cd4932176d2dbfcec0aca7ee3c051b24ad42fb64b9646dfd50bf58b96eedc⟩,
  ⟨87620,
    0xaae8ec9807fc5933013eec3410b3a9033ff1aef6b7beec6f2abdcb8fb0ba816c,
    0x021e3706e00f3bc2977cabb996bd159ac36a727c3432430c942eb9c6287b43f1,
    0x000082242e63237da7aa48c5efb8128272e9e8a0c9c89870de3e3cd917784e35,
    0xfc38df32cf98a5e4f4223b1fc1970f6dc11e22b8248c4cf88c2755bfe939bf70,
    0x163801d695a9bf730fb1e123533406f3396aa038e18774874f8ea57aaad2a5ca⟩,
  ⟨32714,
    0x407dc664b686131a2bc9a218fec3a7fbfb0e40872ee199118c6b916fced4987c,
    0x3aec53be2a38047d9b2127184c256b27ad57337e64c9f73a42eab80ff04e8ba5,
    0x000060601b4d90e1bfd51b907c670c113c3f923fdc250f3794964385b2576921,
    0x2914734f37bdd51d0ba8bde1b8423d918de3bf485f219b346a8fe675e537711d,
    0x196598c2bc6ab0546595a45b4387458cce9e06398a1489393fdeda136b8d28b1⟩,
  ⟨16886,
    0xb584da97fb81b9a27268e0c6966e5d88f722b4cb3a413b72da90ce39706469fb,
    0x05f91059e87b82ebb165ee4c13818ef9bfe86c5bc755d2e31644b3ef1b76a8e4,
    0x00003b3b2a79993f6cb439f62871673bc02531d38093f5475005e44542aac8a9,
    0xceaaaaa4b8bec777dca73e95e219526bfec84b3777f7cb2e2c470d67b011302f,
    0xd70db3b122d1b4c45419e314706a847bb0d476f029a0edcc757c5f5d87991658⟩,
  ⟨44843,
    0x155e4684bcb1b26ec9c7b5025a158c33437e34cfead521a638762d8aec034f9d,
    0xf93894db9627657e14258142dbc7c83d820fd3eea4ab8c85e085e7d1a3883f58,
    0x000043a839ec01f2fd3183060c54e1bc99f4db39b9d1e2a710e5c0e0470a523b,
    0xbfc81794fab9cafcfd9e605e890eea7a305bbcccd6cf975ba936ff281ec09b09,
    0xce03427ea6c5d1d406cda29aec27fc635d1b6e3393ad4e5e59b02b37fc019aa2⟩,
  ⟨59142,
    0x033066b244886fc3023b64686033628cfdc76698e952bc6fd698e68f1e2459f6,
    0x8af7637a86db7109900d476fd3d3430654927461fe5ed2fdac6fe16c8503a161,
    0x0000497a72da5bcd271bd786dbdbe8798fe012c36a1a75f8fb797255738797b4,
    0x189968e9e9c7b64e12add939725077d28727d57010f3a8f9f40ca8dd293fb814,
    0x8fbcf21919b041d2f24d7cb0528ffd9e96f9a21ef495f72ce9c727dec7ad279e⟩,
  ⟨93163,
    0x59ed24086d4c2850de607b924ce12d56199eb9e80309bb3423aae1290f3a234f,
    0xf977abae461c975bd0cbffaf227a75738505de2d88ea427561ccce5d56ac7b47,
    0x0000acd2f3bda2c84be5b930dc7d2a87e4526ca0ce0deea80ebfc9120b0e781c,
    0xc39b78e60a53353695497df5b71ba3f19f3b819b013cace0564ae3631696989a,
    0xc714d8550342446cf82873ddca4b24c1554bbcd2684a2b79398b5eb9184c43d0⟩,
  ⟨64379,
    0xefb03243d2a122f584fcf20b8ae40e9d109df247e98eb55f713ee850d3f1cdd7,
    0x96d646cb5826fe1cdc600da833fc705a1ad79ee53e41f04b37360e37a7727da6,
    0x00003f42b720d2e884d17f574fb0197661e9c02a72858ed64627b089bfd180e5,
    0xa8ee589beef7a033b6178615c256e81dab22ec0c4d37fedc98da401c75f624e4,
    0x05c5f6c3e4a9183bad7fb772adac9cb0bcccdc873da152bd41cfe9d0910f7d31⟩,
  ⟨65356,
    0xafef8837bf0e2b81527526b1402431d0b8291a6caf34f42d5fa34b08b839b419,
    0x6f816b2f599371e669dff183948579943a8135be9196fe0a4f6432659809bdd7,
    0x0000012d81d9029e316b9c4a0ec65b2994afe91e49edf9bf38675c103a7654c5,
    0xdd342217802ab31c4fb969e8f19a46d6697151599dd4e41798826dd288cd58ab,
    0xe62c7601b459430ea26b2030ebb0f2b92069e26c4019ddd09ef3b5e3dae23298⟩,
  ⟨19592,
    0x4963d6ba86fb6b3bdffd38b10643bd4e442479b730277c3c34ddd2546f898c59,
    0xe5d39953c11429b69dfe66c4927ac18622eb58d55c5af397a7d180e984f0e664,
    0x0000ffcde3a496d545e886c3ff91fb3ede63b47f8d65de4a89f613b7c5be8208,
    0x1fab584e472162cf9443d7d6b79374884fc3259ef76332c97c113fd7e24e27ae,
    0x67d9de9c915fb8a33d96b05fa483ed29bde2d3c1414359b9c405a5c98fd426bd⟩,
  ⟨162984,
    0x7eff3b3b134462308e6ed17beda11dd373b1f218c8f698133bd4c2e9a0e93501,
    0x2c624bc4f962d38a02d7fe1d2a43fc8f7f8f5936389a80f483682ca615c78ef2,
    0x0000e3a03fee08cf6da07729efe26d0aa5ec0710cea3fbce1dbd0387b140e389,
    0xeca3554f130be275e82fdf13df9f87c13549b647f183e454dc5b66f88c3a1aec,
    0x6aaeb9ed39c62cd11b4fa55fc3bf4b04a01b2e225ae736812c0b369ef3b62400⟩,
  ⟨5231,
    0x952148ccf02d8212e64070a78e64301cb2c9ad642cc88fbc5ab88d8c96db4cdb,
    0x69d9ffb4d28e909ce20e7819c963ba9d369e7bd93a66966ca0103ddda0b3eeb5,
    0x0000ac40f2fd993101980a6393d8b60dc18ab50bcfdd6b50de506406557c3bb6,
    0x52eb774ac86aaecc8f29588b905aa947e69a86097241683d70785b5c44d4f7dc,
    0xd32ea303d3a2ba1696d951b9348d8d7045aa29576c00765464779dd2ac5392cf⟩,
  ⟨33094,
    0x18c49ea46b3577f188a67a0ba62dd2d95e04382900ce7aa298853abb5b30c9d7,
    0x2344d71cb36895003f121ab13345bce6df09356119fee4618a6e6c17f5252c65,
    0x00006bc323e1819599a29472ac335d5c017164c6c3d8666da552b33dfdb7f2a5,
    0x5f94c24cf1edf010437ce73c4f221ad567d28a26afb95f31df78051e2701f8cf,
    0x5ed1cd53c9718fe8fa894baa184d04caeebee809dad2f647b8b13f959891f5ee⟩,
  ⟨20862,
    0xf9cf1b192c2dea6385cbc4aea25dcb12338e4aae58299a684c531b8bf4b83bce,
    0xd3461386c497a3d86562d9736af5dbd0799041469ba2ca308e24521a3ebfe2ca,
    0x00000372edfdee041c7b62502ebd05e0adbe118ce3636ef1619bcc578dc5f3cb,
    0x8d7bc11f096f95e9f9cd958233fa5deeca25badcdae4740321c26f35fc28f05a,
    0xd9a47a6d3518f66ad1171669d0d17bfd9bafd9402ab602ebb44778d4d47c33f6⟩,
  ⟨1237,
    0xb9be639e0e09b130808794e02eecced22059509aaf568fecac2d893e2e1a5792,
    0xa88721a4e4824ee95908b897474b7004e89e3c9e574f67c3dadbfba7fb743ab7,
    0x0000f78ce59c35653365c9fcfe32f407677f8412511543a65b818633c69e67a8,
    0x0726c36090298961ea8bf145ee168bea0210f079243985a8d5af1b0ad05648e1,
    0x69e2f3a4d180016a06acb9cad8a4261ec208cba511361f9f474719244124ee90⟩,
  ⟨98403,
    0x8bf31f0587ba6b80fbd74220877b8364313cc82cd7a742ef53bdc5c2b4270108,
    0x4103bb4754e50c1b451ee1c3d0497082ac784c740c8ed5befc47b1d351553e59,
    0x00002f9bc9c0b49960d3a23ac24943c951a780f5dbb09c0c78300413e278b1fb,
    0x09cc61661ba999f412a63ffba6f2b9ba92fef722cb47b92f58c1aa1bdb61a775,
    0x3cddbb46a617ebc337a0c1f927ac0a6efbfca39b87c25703105ee5d4100d9b85⟩,
  ⟨100436,
    0xa99b0f3c70becf819f9456367e8ebfa815c80e318c951914dc8fc788646edff5,
    0xa866a8a482a52522aa27ad25ccca65e4a4c6f0cafd15cec1b08c938033da5d0f,
    0x00005f710ac21d8ee6848db19554e256472f50050d9c6266a6b93ef47b7674d5,
    0x2e22eaaff435870276bccc09fbd9b699ef9fe55e67075784d3c30424be6c896d,
    0xab6226e46c77fca408b12d1a9f168f9f502928d195d77c94bdac1b9779f02f77⟩]

/-- The row of a block; that of the genesis block has nothing but its hash and modifier. -/
def regTestRow (h : ℕ) : RegTestRow :=
  match h with
  | 0 => ⟨0, 0, regTestParams.hashGenesisBlock, 0, 0, 0⟩
  | h + 1 => regTestRows.getD h ⟨0, 0, 0, 0, 0, 0⟩

/-- The time of the block at height `h`. -/
def regTestTime (h : ℕ) : UInt32 := UInt32.ofNat (1769817664 + 16 * h)

/-- The coinbase of the block at height `h`: the premine, and 100 coins from then on. -/
def regTestCoinBase (h : ℕ) : CTransaction where
  nVersion := 1
  nTime := regTestTime h
  vin := [⟨COutPoint.null, heightScript h ++ [0], 0xffffffff⟩]
  vout := [⟨if h = 1 then 11000000 * COIN else 100 * COIN, [OP_1]⟩]
  nLockTime := 0

/-- The block at height `h`. -/
def regTestBlock (h : ℕ) : CBlock where
  nVersion := 7
  hashPrevBlock := (regTestRow (h - 1)).hash
  hashMerkleRoot := (regTestRow h).txid
  nTime := regTestTime h
  nBits := 0x1f00ffff
  nNonce := (regTestRow h).nNonce
  vtx := [regTestCoinBase h]
  vchBlockSig := []

/-- The height of the block with the time stamp that starts at byte `k`. -/
def regTestHeightAt (k : ℕ) (bytes : Bytes) : ℕ := (leNat ((bytes.drop k).take 4) - 1769817664) / 16

/-- The height of the block whose hash is in the first 32 bytes. -/
def regTestHeightOf (bytes : Bytes) : ℕ :=
  let hash := leNat (bytes.take 32)
  if hash = regTestParams.hashGenesisBlock.toNat then 0
  else (regTestRows.findIdx fun row => row.hash.toNat = hash) + 1

def regTestCrypto : Crypto where
  hash256 bytes :=
    match bytes.length with
    | 80 =>
      let h := regTestHeightAt 68 bytes
      if bytes = (regTestBlock h).toCBlockHeader.serialize then (regTestRow h).hash else 0
    | 64 =>
      let h := regTestHeightOf bytes
      if bytes = writeUint256 (regTestRow h).hash ++ writeUint256 (regTestRow (h - 1)).nStakeModifier then
        (regTestRow h).nStakeModifier
      else 0
    | 33 =>
      let h := regTestHeightOf bytes + 1
      if bytes = writeUint256 (regTestRow (h - 1)).hash ++ [0] then (regTestRow h).undoChecksum else 0
    | _ =>
      let h := regTestHeightAt 4 bytes
      if bytes = (regTestCoinBase h).serialize then (regTestRow h).txid else 0
  scrypt bytes :=
    let h := regTestHeightAt 68 bytes
    if bytes = (regTestBlock h).toCBlockHeader.serialize then (regTestRow h).powHash else 0
  verify _ _ _ := false
  checkLowS _ := false
  verifyScript scriptSig scriptPubKey _ _ _ :=
    if scriptSig = [] ∧ scriptPubKey = [OP_1] then .ok () else .error "unknown error"

/-! ## Stake

Blocks at height 11 that stake an output of the premine, with key 1 of the curve. -/

structure StakeRow where
  coinStake : Uint256
  hashMerkleRoot : Uint256
  hash : Uint256
  /-- The hash of the kernel. -/
  kernel : Uint256
  /-- The second half of the signature. -/
  s : Uint256

/-- The values for output `n`, which is 0 or 7. -/
def stakeRow (n : UInt32) : StakeRow :=
  if n = 0 then
    ⟨0x6f437716a999d1bcc713b0fc005f36b35a948d69f6da4de4a594949c6779d598,
     0xecb2f040dcc5c707cc235e05a52541b5f1b433ca8bb635a2accacdfe71996568,
     0x4b8f7b27d584d8d567fcd2bbdbbc20bb592767283a208be7e54aac3e13974029,
     0x56c80690dd089c1cf79159cd6fd68beeb7766242427fb7620cf85e81aeed1100,
     0x5d01026dc776f96dc2d47d300911cd9dfcf2232fc5a77afa9007585c91c29a5e⟩
  else
    ⟨0x00bc00ad8b99269e364bb91775c215f6ba216153b5532e2e0becde0ba701614a,
     0x8e88c608c20be50f34e16345be70e27efe5379ed4cc916fa890740938f216f73,
     0xfe7edc948fd0efd241b211b48a2c053f1aafac9faf324a1103d103c627fc794e,
     0x1ec395254a18172af1881b067477cf307d2f14c0b774caff2587c8b0cb61a476,
     0x37c79d59401f735099156aba91cc45dd790db380cd68c52092f00ca22461aaab⟩

/-- The first coordinate of the generator. -/
def generatorX : Uint256 := 0x79be667ef9dcbbac55a06295ce870b07029bfcdb2dce28d959f2815b16f81798

def stakeKey : Bytes := 2 :: (writeUint256 generatorX).reverse

/-- The signature `(generatorX, s)` in DER form. -/
def stakeSig (s : Uint256) : Bytes :=
  [0x30, 0x44, 2, 0x20] ++ (writeUint256 generatorX).reverse ++ [2, 0x20] ++ (writeUint256 s).reverse

def stakeCoinBase : CTransaction := { regTestCoinBase 11 with vout := [⟨0, []⟩] }

/-- The coinstake that spends output `n` of the premine and takes the reward. -/
def stakeTx (n : UInt32) : CTransaction where
  nVersion := 1
  nTime := regTestTime 11
  vin := [⟨⟨(regTestRow 1).txid, n⟩, [], 0xffffffff⟩]
  vout := [⟨0, []⟩, ⟨11000100 * COIN, writeBytes stakeKey ++ [OP_CHECKSIG]⟩]
  nLockTime := 0

def stakeBlock (n : UInt32) : CBlock where
  nVersion := 7
  hashPrevBlock := (regTestRow 10).hash
  hashMerkleRoot := (stakeRow n).hashMerkleRoot
  nTime := regTestTime 11
  nBits := 0x1e0fffff
  nNonce := 0
  vtx := [stakeCoinBase, stakeTx n]
  vchBlockSig := stakeSig (stakeRow n).s

def stakeCoinBaseTxid : Uint256 := 0x523a5f5af188827c613f561468a66e09b5749cf715c6922f90c67aeba2912805

def stakeCrypto (n : UInt32) : Crypto :=
  { regTestCrypto with
    hash256 := fun bytes =>
      match bytes.length with
      | 80 =>
        if bytes = (stakeBlock n).toCBlockHeader.serialize then (stakeRow n).hash
        else regTestCrypto.hash256 bytes
      | 76 =>
        if bytes = writeUint256 (regTestRow 10).nStakeModifier ++ leBytes 4 (regTestTime 1).toNat ++
            writeUint256 (regTestRow 1).txid ++ leBytes 4 n.toNat ++ leBytes 4 (regTestTime 11).toNat
        then (stakeRow n).kernel else 0
      | 64 =>
        if bytes = writeUint256 stakeCoinBaseTxid ++ writeUint256 (stakeRow n).coinStake then
          (stakeRow n).hashMerkleRoot
        else if bytes = writeUint256 (regTestRow 1).txid ++ writeUint256 (regTestRow 10).nStakeModifier
        then 0xdca15d8757fe2f29f8a054342c8096e379a7f33f839505daa787f63da31a2dfd
        else regTestCrypto.hash256 bytes
      | _ =>
        if bytes = stakeCoinBase.serialize then stakeCoinBaseTxid
        else if bytes = (stakeTx n).serialize then (stakeRow n).coinStake
        else regTestCrypto.hash256 bytes
    verify := fun key hash sig =>
      key = stakeKey ∧ hash = (stakeRow n).hash ∧ sig = stakeSig (stakeRow n).s
    checkLowS := fun sig => sig = stakeSig (stakeRow n).s }

/-! ## Runs -/

/-- Blocks handed to the node one after another, each followed by a turn of `ActivateBestChain`. -/
def deliver (nAdjustedTime : ℤ) (blocks : List CBlock) : List NodeOp :=
  blocks.flatMap fun b => [.block nAdjustedTime b true, .activate 0 (some b)]

end X2XCoin
